import LcdHandhelds.Manifest.Extraction
import LcdHandhelds.Proofs.Machine.Declaration
import LcdHandhelds.Proofs.Text.Reading

/-!
Scans for classes and constructors that go on behind a part of the source. A part without the word
that a scan looks for is passed over (`DriverClass.scan_append`, `constructorBody?_append`).
-/
namespace LcdHandhelds

open Text

namespace DriverClass

/-- The class as it stands behind `n` more characters. -/
def shift (n : Nat) (c : DriverClass) : DriverClass :=
  { c with start := n + c.start, stop := n + c.stop }

theorem ofOccurrence?_shift (n : Nat) {size : Nat} {o : Occurrence} (h : o.after.length ≤ size) :
    ofOccurrence? (n + size) (o.shift n) = (ofOccurrence? size o).map (shift n) := by
  rw [ofOccurrence?_eq, ofOccurrence?_eq, Occurrence.shift]
  cases hname : className? o.after with
  | none => rfl
  | some p =>
    rw [Option.bind_some, Option.bind_some]
    cases hbody : splitBefore? ['\x7d', ';'] [] p.2 with
    | none => rfl
    | some q =>
      have hrest : q.2 <:+ p.2 := ⟨q.1, (eq_of_splitBefore? hbody).symm⟩
      have hle := (hrest.trans (suffix_of_className? hname)).length_le
      simp only [Option.map_some, shift]
      rw [Nat.add_sub_assoc (Nat.le_trans hle h)]

theorem scanFrom_shift (n : Nat) {size resume : Nat} {found : List Occurrence}
    (h : ∀ o ∈ found, o.after.length ≤ size) :
    scanFrom (n + size) (n + resume) (found.map (Occurrence.shift n)) =
      (scanFrom size resume found).map (shift n) := by
  induction found generalizing resume with
  | nil => rfl
  | cons o found ih =>
    rw [List.forall_mem_cons] at h
    have hplace : (o.shift n).place < n + resume ↔ o.place < resume :=
      Nat.add_lt_add_iff_left
    rw [List.map_cons, scanFrom, scanFrom, ofOccurrence?_shift n h.1]
    simp only [hplace]
    split
    · exact ih h.2
    · cases ofOccurrence? size o with
      | none => exact ih h.2
      | some c => exact congrArg (c.shift n :: ·) (ih h.2)

/-- It makes no difference where a scan goes on, as long as it misses no occurrence. -/
theorem scanFrom_resume {size a b : Nat} {found : List Occurrence}
    (h : ∀ o ∈ found, a ≤ o.place ∧ b ≤ o.place) :
    scanFrom size a found = scanFrom size b found := by
  induction found with
  | nil => rfl
  | cons o found ih =>
    rw [List.forall_mem_cons] at h
    rw [scanFrom, scanFrom, if_neg (Nat.not_lt.2 h.1.1), if_neg (Nat.not_lt.2 h.1.2), ih h.2]

theorem length_after_le {word : String} (hne : word.toList ≠ []) {text : List Char}
    {o : Occurrence} (h : o ∈ occurrences word text) : o.after.length ≤ text.length := by
  have htext := (eq_of_mem_occurrences hne h).2
  rw [htext, List.length_append, List.length_append]
  omega

/-- Behind a part of a source, the classes are found that are found without it. -/
theorem scanFrom_shifted {n resume : Nat} (hresume : resume ≤ n) (rest : List Char) :
    scanFrom (n + rest.length) resume ((occurrences "class" rest).map (Occurrence.shift n)) =
      (scan rest).map (shift n) := by
  have hmissed : ∀ o ∈ (occurrences "class" rest).map (Occurrence.shift n),
      resume ≤ o.place ∧ n + 0 ≤ o.place := by
    intro o ho
    obtain ⟨o, -, rfl⟩ := List.mem_map.1 ho
    exact ⟨Nat.le_trans hresume (Nat.le_add_right _ _), Nat.le_add_right _ _⟩
  rw [scanFrom_resume hmissed, scanFrom_shift n fun o ho => length_after_le (by decide) ho, scan]

theorem scan_append {text : List Char} (hend : Ended text) (hclass : "class".toList ∉ words text)
    (rest : List Char) : scan (text ++ rest) = (scan rest).map (shift text.length) := by
  rw [scan, occurrences_append (by decide) (by decide) hend hclass, List.length_append]
  exact scanFrom_shifted (Nat.zero_le _) rest

end DriverClass

theorem declarations_append {text : List Char} (hend : Ended text)
    (hclass : "class".toList ∉ words text) (rest : List Char) :
    declarations (text ++ rest) = declarations rest := by
  rw [declarations, DriverClass.scan_append hend hclass, List.flatMap_map]
  rfl

theorem constructorBody?_append {text : List Char} (hend : Ended text)
    (hvoid : "void".toList ∉ words text) (rest : List Char) (className device : String) :
    constructorBody? (text ++ rest) className device = constructorBody? rest className device := by
  rw [constructorBody?, occurrences_append (by decide) (by decide) hend hvoid, List.findSome?_map]
  rfl

theorem constructorBody?_void (rest : List Char) (className device : String) :
    constructorBody? ("void".toList ++ ' ' :: rest) className device =
      ((definedBody? className device (' ' :: rest)).map trim).or
        (constructorBody? rest className device) := by
  rw [constructorBody?, occurrences_word (by decide) (by decide) (by decide),
    List.findSome?_cons, List.findSome?_map, constructorBody?]
  cases definedBody? className device (' ' :: rest) <;> rfl

/-! ### Tokens of a declaration -/

theorem space?_space {text : List Char} (h : ∀ c ∈ text.head?, isBlank c = false) :
    space? (' ' :: text) = some text :=
  space?_eq_some_iff.2 ⟨[' '], List.cons_ne_nil _ _, by decide, rfl, h⟩

theorem className?_token {name : List Char} (h : IsToken name)
    (hstate : "_state".toList.isSuffixOf name = true) (rest : List Char) :
    className? (' ' :: (name ++ ' ' :: ':' :: rest)) = some (name, rest) := by
  have hspaced : ∃ gap gap', ' ' :: (name ++ [' ', ':']) = gap ++ name ++ gap' ++ [':'] ∧
      (gap ≠ [] ∧ gap.all isBlank) ∧ gap' ≠ [] ∧ gap'.all isBlank :=
    ⟨[' '], [' '], by simp, by decide, by decide⟩
  exact className?_eq_some_iff.2
    ⟨_, ⟨hspaced, h.word, List.isSuffixOf_iff_suffix.1 hstate⟩, by simp⟩

/-- A token is stepped over where it stands. -/
theorem token?_append {token : String} (h : Solid token) (rest : List Char) :
    token? token (token.toList ++ rest) = some rest :=
  (token?_eq_some_iff h).2 ⟨[], rfl, rfl⟩

theorem token?_blank (token : String) {c : Char} (hc : isBlank c) (rest : List Char) :
    token? token (c :: rest) = token? token rest := by
  rw [token?, skipBlank_cons, if_pos hc, token?]

theorem declaredDevice?_token {name : List Char} (h : IsToken name) (rest : List Char) :
    declaredDevice? (' ' :: (name ++ '(' :: ("machine_config &config".toList ++ rest))) =
      some (String.ofList name) := by
  simp only [declaredDevice?, Option.bind_eq_bind, space?_space (h.head?_append _),
    h.identifier?_append (d := '(') (by decide), Option.bind_some]
  rfl

/-! ### Tokens of a definition -/

/-- The body of a constructor, after the name that the definition gives it. -/
def bodyAfterName? (text : List Char) : Option (List Char) := do
  let text ← token? "(" text
  let text ← token? "machine_config" text
  let text ← token? "&" text
  let text ← token? "config" text
  let text ← token? ")" text
  let text ← token? "\x7b" text
  bodyBefore? [] false text

theorem bodyAfterName?_of_isWordChar {c : Char} (hc : isWordChar c) (text : List Char) :
    bodyAfterName? (c :: text) = none := by
  have hblank := isBlank_of_isWordChar hc
  have hparen : '(' ≠ c := by
    rintro rfl
    exact absurd hc (by decide)
  have hfront : ['('].isPrefixOf? (c :: text) = none := by simp [List.isPrefixOf?, hparen]
  have htoken : token? "(" (c :: text) = none := by
    rw [token?, skipBlank_cons, hblank, if_neg Bool.false_ne_true]
    exact hfront
  rw [bodyAfterName?, htoken]
  rfl

theorem bodyAfterName?_parameter (text : List Char) :
    bodyAfterName? ('(' :: ("machine_config &config)\n\x7b".toList ++ text)) =
      bodyBefore? [] false text := by
  have htext : '(' :: ("machine_config &config)\n\x7b".toList ++ text) =
      "(".toList ++ ("machine_config".toList ++ ' ' :: ("&".toList ++ ("config".toList ++
        (")".toList ++ '\n' :: ("\x7b".toList ++ text))))) :=
    rfl
  simp only [htext, bodyAfterName?, Option.bind_eq_bind, token?_blank _ (by decide : isBlank ' '),
    token?_blank _ (by decide : isBlank '\n'), Option.bind_some,
    @token?_append "(" (by decide), @token?_append "machine_config" (by decide),
    @token?_append "&" (by decide), @token?_append "config" (by decide),
    @token?_append ")" (by decide), @token?_append "\x7b" (by decide)]

/-- The body of a device's constructor, after the name of its class. -/
def bodyAfterClass? (device : String) (text : List Char) : Option (List Char) :=
  ("::".toList.isPrefixOf? text).bind fun text =>
    (device.toList.isPrefixOf? text).bind bodyAfterName?

theorem bodyAfterClass?_of_ne (device : String) {c : Char} (hc : ':' ≠ c) (text : List Char) :
    bodyAfterClass? device (c :: text) = none := by
  have hfront : [':', ':'].isPrefixOf? (c :: text) = none := by simp [List.isPrefixOf?, hc]
  exact Option.bind_eq_none_iff.2 fun _ hrest => nomatch hfront.symm.trans hrest

section Definition

variable {word : List Char} {d : Char} {className device : String}

/-- A definition in a class is one of the class whose name it gives in full. -/
theorem definedBody?_token (hclass : className.toList.all isWordChar) (h : IsToken word)
    (hd : isWordChar d = false) (rest : List Char) :
    definedBody? className device (' ' :: (word ++ d :: rest)) =
      if className.toList = word then bodyAfterClass? device (d :: rest) else none := by
  have hcolon : ∀ c text, isWordChar c → bodyAfterClass? device (c :: text) = none := by
    intro c text hc
    refine bodyAfterClass?_of_ne device ?_ text
    rintro rfl
    exact absurd hc (by decide)
  have hspace := space?_space (h.head?_append (d :: rest))
  rw [← bind_isPrefixOf?_word hclass h.word hd rest hcolon, definedBody?, hspace]
  rfl

theorem bodyAfterClass?_token (hdevice : device.toList.all isWordChar) (h : IsToken word)
    (hd : isWordChar d = false) (rest : List Char) :
    bodyAfterClass? device (':' :: ':' :: (word ++ d :: rest)) =
      if device.toList = word then bodyAfterName? (d :: rest) else none :=
  bind_isPrefixOf?_word hdevice h.word hd rest fun _ text hc => bodyAfterName?_of_isWordChar hc text

end Definition

/-- The first closing brace at the start of a line ends a constructor. -/
theorem bodyBefore?_of_notMem {text : List Char} (h : '\x7d' ∉ text) (read : List Char)
    (blank : Bool) (rest : List Char) :
    bodyBefore? read blank (text ++ '\n' :: '\x7d' :: rest) =
      some (read.reverse ++ text ++ ['\n']) := by
  induction text generalizing read blank with
  | nil =>
    rw [List.nil_append, bodyBefore?_cons, if_neg (by simp), bodyBefore?_cons,
      if_pos ⟨rfl, rfl⟩]
    simp
  | cons c text ih =>
    rw [List.mem_cons, not_or] at h
    rw [List.cons_append, bodyBefore?_cons, if_neg (by simp [Ne.symm h.1]), ih h.2]
    simp

end LcdHandhelds

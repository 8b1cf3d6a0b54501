import LcdHandhelds.Machine.DriverClass
import LcdHandhelds.Proofs.Text.LineEnding

/-!
Driver classes and constructors of a source whose lines end in carriage return and line feed. They
have the names they have in the source with plain line feeds, and the same bodies in the written form.
-/
namespace LcdHandhelds

open Text

/-! ### Places -/

namespace Text

theorem crlfPlace_length (front back : List Char) :
    crlfPlace (front ++ back) front.length = (crlf front).length := by
  rw [crlfPlace, List.take_left]

/-- Later places lie later in the written form. -/
theorem crlfPlace_lt {text : List Char} {p q : Nat} (hpq : p < q) (hq : q ≤ text.length) :
    crlfPlace text p < crlfPlace text q := by
  obtain ⟨k, rfl⟩ := Nat.exists_eq_add_of_lt hpq
  have htake : text.take (p + k + 1) = text.take p ++ (text.drop p).take (k + 1) := by
    rw [Nat.add_assoc, List.take_add]
  have hmid := length_le_length_crlf ((text.drop p).take (k + 1))
  rw [List.length_take, List.length_drop] at hmid
  rw [crlfPlace, crlfPlace, htake, crlf_append, List.length_append]
  omega

theorem crlfPlace_lt_iff {text : List Char} {p q : Nat} (hp : p ≤ text.length)
    (hq : q ≤ text.length) : crlfPlace text p < crlfPlace text q ↔ p < q := by
  constructor
  · intro h
    by_contra hn
    rcases Nat.eq_or_lt_of_le (Nat.le_of_not_lt hn) with rfl | hlt
    · omega
    · have := crlfPlace_lt hlt hp
      omega
  · exact fun h => crlfPlace_lt h hq

end Text

/-! ### Parts of a text -/

theorem suffix_of_space? {text rest : List Char} (h : space? text = some rest) :
    rest <:+ text := by
  cases text with
  | nil => cases h
  | cons c text =>
    rw [space?] at h
    split at h
    · cases h
      exact (List.dropWhile_suffix _).trans (List.suffix_cons c text)
    · cases h

theorem suffix_of_identifier? {text : List Char} {p : List Char × List Char}
    (h : identifier? text = some p) : p.2 <:+ text := by
  rw [identifier?] at h
  split at h
  · cases h
  · cases h
    exact List.dropWhile_suffix _

theorem suffix_of_isPrefixOf? {mark text rest : List Char}
    (h : mark.isPrefixOf? text = some rest) : rest <:+ text :=
  ⟨mark, List.isPrefixOf?_eq_some_iff_append_eq.1 h⟩

/-- What follows a class's name is the end of what follows the word before it. -/
theorem suffix_of_className? {text : List Char} {p : List Char × List Char}
    (h : className? text = some p) : p.2 <:+ text := by
  simp only [className?, Option.bind_eq_bind, Option.bind_eq_some_iff, Prod.exists] at h
  obtain ⟨t, hspace, name, u, hname, v, hspace', w, hcolon, h⟩ := h
  split at h
  · cases h
    exact (suffix_of_isPrefixOf? hcolon).trans ((suffix_of_space? hspace').trans
      ((suffix_of_identifier? hname).trans (suffix_of_space? hspace)))
  · cases h

theorem eq_of_splitBefore? {mark before text : List Char} {p : List Char × List Char}
    (h : splitBefore? mark before text = some p) : before.reverse ++ text = p.1 ++ p.2 := by
  induction text generalizing before with
  | nil =>
    rw [splitBefore?] at h
    split at h
    · cases h
      rfl
    · cases h
  | cons c text ih =>
    rw [splitBefore?] at h
    split at h
    · cases h
      rfl
    · rw [← ih h, List.reverse_cons, List.append_assoc, List.singleton_append]

theorem suffix_of_token? {token : String} {text rest : List Char}
    (h : token? token text = some rest) : rest <:+ text :=
  (suffix_of_isPrefixOf? h).trans (List.dropWhile_suffix _)

theorem eq_of_bodyBefore? {read : List Char} {blank : Bool} {text body : List Char}
    (h : bodyBefore? read blank text = some body) : body ⊆ read ++ text := by
  fun_induction bodyBefore? read blank text with
  | case1 => cases h
  | case2 read text =>
    obtain rfl := Option.some.inj h
    intro d hd
    exact List.mem_append_left _ (List.mem_reverse.1 hd)
  | case3 read blank c text _ ih =>
    intro d hd
    have := ih h hd
    simpa [or_left_comm] using this

/-- The body of a constructor is a part of the source. -/
theorem subset_of_constructorBody? {source : List Char} {className device : String}
    {body : List Char} (h : constructorBody? source className device = some body) :
    body ⊆ source := by
  obtain ⟨o, ho, hbody⟩ := List.exists_of_findSome?_eq_some h
  obtain ⟨inner, hinner, rfl⟩ := Option.map_eq_some_iff.1 hbody
  simp only [definedBody?, Option.bind_eq_bind, Option.bind_eq_some_iff] at hinner
  obtain ⟨t₁, h₁, t₂, h₂, t₃, h₃, t₄, h₄, t₅, h₅, t₆, h₆, t₇, h₇, t₈, h₈, t₉, h₉, t, ht, hb⟩ :=
    hinner
  have hsuffix : t <:+ o.after :=
    (suffix_of_token? ht).trans <| (suffix_of_token? h₉).trans <| (suffix_of_token? h₈).trans <|
      (suffix_of_token? h₇).trans <| (suffix_of_token? h₆).trans <| (suffix_of_token? h₅).trans <|
      (suffix_of_isPrefixOf? h₄).trans <| (suffix_of_isPrefixOf? h₃).trans <|
      (suffix_of_isPrefixOf? h₂).trans (suffix_of_space? h₁)
  intro d hd
  rw [(eq_of_mem_occurrences (by decide) ho).2]
  have hinner := eq_of_bodyBefore? hb (trim_subset _ hd)
  exact List.mem_append_right _ (List.mem_append_right _ (hsuffix.subset hinner))

/-! ### Classes -/

theorem space?_crlf (text : List Char) : space? (crlf text) = (space? text).map crlf := by
  cases text with
  | nil => rfl
  | cons c text =>
    by_cases hc : c = '\n'
    · subst hc
      rw [crlf_newline, space?, space?, if_pos (by decide), if_pos (by decide), skipBlank_cons,
        if_pos (by decide), skipBlank_crlf]
      rfl
    · rw [crlf_cons_of_ne hc, space?, space?, skipBlank_crlf]
      split <;> rfl

theorem token?_crlf (token : String) (h : OneLine token.toList) (text : List Char) :
    token? token (crlf text) = (token? token text).map crlf := by
  rw [token?, skipBlank_crlf, isPrefixOf?_crlf h, token?]

theorem declaredDevice?_crlf (text : List Char) :
    declaredDevice? (crlf text) = declaredDevice? text := by
  simp only [declaredDevice?, Option.bind_eq_bind, space?_crlf, identifier?_crlf,
    token?_crlf "(" (by decide), token?_crlf "machine_config" (by decide),
    token?_crlf "&" (by decide), token?_crlf "config" (by decide),
    Option.bind_map, Function.comp_def]

theorem className?_crlf (text : List Char) :
    className? (crlf text) = (className? text).map fun p => (p.1, crlf p.2) := by
  simp only [className?, Option.bind_eq_bind, space?_crlf, identifier?_crlf,
    @isPrefixOf?_crlf ":".toList (by decide), Option.bind_map, Function.comp_def,
    Option.map_bind, apply_ite (Option.map _)]
  rfl

namespace DriverClass

/-- The class as it stands in the written form of its source. -/
def crlf (source : List Char) (c : DriverClass) : DriverClass :=
  ⟨crlfPlace source c.start, c.name, Text.crlf c.body, crlfPlace source c.stop⟩

theorem devices_crlf (source : List Char) (c : DriverClass) :
    (c.crlf source).devices = c.devices := by
  rw [devices, crlf, occurrences_crlf (by decide) (by decide), List.filterMap_map, devices]
  exact List.filterMap_congr fun o _ => declaredDevice?_crlf o.after

theorem ofOccurrence?_eq (size : Nat) (o : Occurrence) :
    ofOccurrence? size o =
      (className? o.after).bind fun p =>
        (splitBefore? ['\x7d', ';'] [] p.2).map fun q =>
          ⟨o.place, String.ofList p.1, q.1, size - q.2.length⟩ := by
  rw [ofOccurrence?, Option.bind_eq_bind]
  congr 1
  funext p
  rw [Option.map_eq_bind]
  rfl

theorem ofOccurrence?_crlf {source : List Char} {o : Occurrence}
    (ho : source = source.take o.place ++ ("class".toList ++ o.after)) :
    ofOccurrence? (Text.crlf source).length (o.crlf source) =
      (ofOccurrence? source.length o).map (crlf source) := by
  rw [ofOccurrence?_eq, ofOccurrence?_eq, Occurrence.crlf, className?_crlf]
  cases hname : className? o.after with
  | none => rfl
  | some p =>
    have hwritten := @splitBefore?_crlf ['\x7d', ';'] (by decide) (by decide) [] p.2
    rw [Text.crlf_nil, List.reverse_nil] at hwritten
    simp only [Option.map_some, Option.bind_some, hwritten]
    cases hbody : splitBefore? ['\x7d', ';'] [] p.2 with
    | none => rfl
    | some q =>
      -- what follows the class's body is the end of the source
      have hrest : q.2 <:+ p.2 := ⟨q.1, (eq_of_splitBefore? hbody).symm⟩
      obtain ⟨front, hfront⟩ : q.2 <:+ source := by
        rw [ho]
        have hafter := hrest.trans (suffix_of_className? hname)
        exact (hafter.trans (List.suffix_append _ _)).trans (List.suffix_append _ _)
      have hlength : source.length - q.2.length = front.length := by
        rw [← hfront, List.length_append, Nat.add_sub_cancel]
      have hlength' : (Text.crlf source).length - (Text.crlf q.2).length =
          (Text.crlf front).length := by
        rw [← hfront, crlf_append, List.length_append, Nat.add_sub_cancel]
      simp only [Option.map_some, crlf, hlength, hlength']
      rw [← crlfPlace_length front q.2, hfront]

theorem scanFrom_crlf {source : List Char} {resume : Nat} (hresume : resume ≤ source.length)
    (found : List Occurrence)
    (hfound : ∀ o ∈ found, o.place < source.length ∧
      source = source.take o.place ++ ("class".toList ++ o.after)) :
    scanFrom (Text.crlf source).length (crlfPlace source resume)
        (found.map (Occurrence.crlf source)) =
      (scanFrom source.length resume found).map (crlf source) := by
  induction found generalizing resume with
  | nil => rfl
  | cons o found ih =>
    obtain ⟨⟨hlt, ho⟩, hrest⟩ := List.forall_mem_cons.1 hfound
    have hiff : (o.crlf source).place < crlfPlace source resume ↔ o.place < resume :=
      crlfPlace_lt_iff (Nat.le_of_lt hlt) hresume
    rw [List.map_cons, scanFrom, scanFrom]
    simp only [hiff]
    split
    · exact ih hresume hrest
    · rw [ofOccurrence?_crlf ho]
      cases hc : ofOccurrence? source.length o with
      | none => exact ih hresume hrest
      | some c =>
        have hle : c.stop ≤ source.length := by
          rw [ofOccurrence?_eq] at hc
          obtain ⟨p, -, hc⟩ := Option.bind_eq_some_iff.1 hc
          obtain ⟨q, -, rfl⟩ := Option.map_eq_some_iff.1 hc
          exact Nat.sub_le _ _
        exact congrArg (c.crlf source :: ·) (ih hle hrest)

/-- The classes that a scan gives are those at occurrences. -/
theorem of_mem_scanFrom {size resume : Nat} {found : List Occurrence} {c : DriverClass}
    (h : c ∈ scanFrom size resume found) : ∃ o ∈ found, ofOccurrence? size o = some c := by
  induction found generalizing resume with
  | nil => exact absurd h List.not_mem_nil
  | cons o found ih =>
    have hlater : ∀ {resume}, c ∈ scanFrom size resume found →
        ∃ o' ∈ o :: found, ofOccurrence? size o' = some c := fun h =>
      let ⟨o', ho', hc⟩ := ih h
      ⟨o', List.mem_cons_of_mem _ ho', hc⟩
    rw [scanFrom] at h
    split at h
    · exact hlater h
    · split at h
      next d hd =>
        rcases List.mem_cons.1 h with rfl | h
        · exact ⟨o, List.mem_cons_self, hd⟩
        · exact hlater h
      · exact hlater h

theorem scan_crlf (source : List Char) :
    scan (Text.crlf source) = (scan source).map (crlf source) := by
  rw [scan, occurrences_crlf (by decide) (by decide)]
  exact scanFrom_crlf (Nat.zero_le _) _ fun o ho => eq_of_mem_occurrences (by decide) ho

end DriverClass

/-! ### Constructors -/

theorem bodyBefore?_cons (read : List Char) (blank : Bool) (c : Char) (text : List Char) :
    bodyBefore? read blank (c :: text) =
      if blank = true ∧ c = '\x7d' then some read.reverse
      else bodyBefore? (c :: read) (isAsciiBlank c) text := by
  by_cases h : blank = true ∧ c = '\x7d'
  · obtain ⟨rfl, rfl⟩ := h
    rw [if_pos ⟨rfl, rfl⟩, bodyBefore?]
  · rw [if_neg h, bodyBefore?]
    exact fun hb hc => h ⟨hb, hc⟩

theorem bodyBefore?_crlf (read : List Char) (blank : Bool) (text : List Char) :
    bodyBefore? (crlf read).reverse blank (crlf text) =
      (bodyBefore? read.reverse blank text).map crlf := by
  induction text generalizing read blank with
  | nil => simp [bodyBefore?]
  | cons c text ih =>
    have h := ih (read ++ [c]) (isAsciiBlank c)
    rw [crlf_append, List.reverse_append, List.reverse_append] at h
    by_cases hc : c = '\n'
    · subst hc
      rw [crlf_newline, bodyBefore?_cons, if_neg (by simp), bodyBefore?_cons, if_neg (by simp),
        bodyBefore?_cons, if_neg (by simp)]
      exact h
    · rw [crlf_cons_of_ne hc, crlf_nil] at h
      rw [crlf_cons_of_ne hc, bodyBefore?_cons, bodyBefore?_cons]
      split
      · rw [List.reverse_reverse, Option.map_some, List.reverse_reverse]
      · exact h

theorem definedBody?_crlf {className device : String} (hc : OneLine className.toList)
    (hd : OneLine device.toList) (text : List Char) :
    definedBody? className device (crlf text) = (definedBody? className device text).map crlf := by
  have hbody : ∀ text, bodyBefore? [] false (crlf text) = (bodyBefore? [] false text).map crlf :=
    fun text => bodyBefore?_crlf [] false text
  simp only [definedBody?, Option.bind_eq_bind, space?_crlf, isPrefixOf?_crlf hc,
    isPrefixOf?_crlf hd, @isPrefixOf?_crlf "::".toList (by decide),
    token?_crlf "(" (by decide), token?_crlf "machine_config" (by decide),
    token?_crlf "&" (by decide), token?_crlf "config" (by decide),
    token?_crlf ")" (by decide), token?_crlf "\x7b" (by decide), hbody,
    Option.bind_map, Function.comp_def, Option.map_bind]

theorem constructorBody?_crlf {className device : String} (hc : OneLine className.toList)
    (hd : OneLine device.toList) (source : List Char) :
    constructorBody? (crlf source) className device =
      (constructorBody? source className device).map crlf := by
  rw [constructorBody?, occurrences_crlf (by decide) (by decide), constructorBody?]
  induction occurrences "void" source with
  | nil => rfl
  | cons o rest ih =>
    rw [List.map_cons, List.findSome?_cons, List.findSome?_cons, Occurrence.crlf,
      definedBody?_crlf hc hd]
    cases definedBody? className device o.after with
    | none => exact ih
    | some body => simp [trim_crlf]

/-! ### Names in a source are identifiers -/

theorem all_isWordChar_of_identifier? {text : List Char} {p : List Char × List Char}
    (h : identifier? text = some p) : p.1.all isWordChar := by
  rw [identifier?] at h
  split at h
  · cases h
  · cases h
    exact List.all_takeWhile

theorem oneLine_of_declaredDevice? {text : List Char} {device : String}
    (h : declaredDevice? text = some device) : OneLine device.toList := by
  simp only [declaredDevice?, Option.bind_eq_bind, Option.bind_eq_some_iff, Prod.exists] at h
  obtain ⟨t, -, name, u, hname, v, -, w, -, x, -, y, -, h⟩ := h
  obtain rfl := Option.some.inj h
  rw [String.toList_ofList]
  exact oneLine_of_all_isWordChar (all_isWordChar_of_identifier? hname)

theorem oneLine_of_mem_scan {source : List Char} {c : DriverClass}
    (h : c ∈ DriverClass.scan source) : OneLine c.name.toList := by
  obtain ⟨o, -, ho⟩ := DriverClass.of_mem_scanFrom h
  rw [DriverClass.ofOccurrence?_eq] at ho
  obtain ⟨p, hp, ho⟩ := Option.bind_eq_some_iff.1 ho
  obtain ⟨q, -, rfl⟩ := Option.map_eq_some_iff.1 ho
  simp only [className?, Option.bind_eq_bind, Option.bind_eq_some_iff, Prod.exists] at hp
  obtain ⟨t, -, name, u, hname, v, -, w, -, hp⟩ := hp
  have hword := all_isWordChar_of_identifier? hname
  split at hp
  · cases hp
    rw [String.toList_ofList]
    exact oneLine_of_all_isWordChar hword
  · cases hp

end LcdHandhelds

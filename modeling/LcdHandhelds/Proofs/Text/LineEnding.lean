import Mathlib.Data.List.Induction
import LcdHandhelds.Proofs.Text.Argument
import LcdHandhelds.Proofs.Text.Delimited
import LcdHandhelds.Proofs.Text.Lines
import LcdHandhelds.Proofs.Text.Sweep

/-!
Texts whose lines end in carriage return and line feed. A scan of such a text finds what it finds in
the text with plain line feeds: the same lines, and the same groups, calls, arguments and words with
their line feeds written in the longer way.
-/
namespace LcdHandhelds.Text

/-- One character as it is written where lines end in two. -/
def crlfUnit (c : Char) : List Char :=
  if c = '\n' then ['\r', '\n'] else [c]

/-- Every line feed gets a carriage return before it. -/
def crlf (text : List Char) : List Char :=
  text.flatMap crlfUnit

/-- A text in which no line ends. -/
structure OneLine (text : List Char) : Prop where
  noReturn : '\r' ∉ text
  noFeed : '\n' ∉ text

instance (text : List Char) : Decidable (OneLine text) :=
  decidable_of_iff ('\r' ∉ text ∧ '\n' ∉ text) ⟨fun h => ⟨h.1, h.2⟩, fun h => ⟨h.1, h.2⟩⟩

/-! ### The written form -/

@[simp] theorem crlf_nil : crlf [] = [] := rfl

@[simp] theorem crlf_append (s t : List Char) : crlf (s ++ t) = crlf s ++ crlf t :=
  List.flatMap_append

theorem crlf_newline (text : List Char) : crlf ('\n' :: text) = '\r' :: '\n' :: crlf text := rfl

theorem crlf_cons_of_ne {c : Char} (h : c ≠ '\n') (text : List Char) :
    crlf (c :: text) = c :: crlf text := by
  simp [crlf, crlfUnit, h]

theorem crlf_eq_self {text : List Char} (h : '\n' ∉ text) : crlf text = text := by
  induction text with
  | nil => rfl
  | cons c text ih =>
    have hc : c ≠ '\n' := fun he => h (he ▸ List.mem_cons_self)
    rw [crlf_cons_of_ne hc, ih fun ht => h (List.mem_cons_of_mem _ ht)]

theorem length_le_length_crlf (text : List Char) : text.length ≤ (crlf text).length := by
  induction text with
  | nil => exact Nat.le_refl 0
  | cons c text ih =>
    by_cases hc : c = '\n'
    · subst hc
      simp only [crlf_newline, List.length_cons]
      omega
    · simp only [crlf_cons_of_ne hc, List.length_cons]
      omega

theorem crlf_eq_nil_iff {text : List Char} : crlf text = [] ↔ text = [] := by
  cases text with
  | nil => simp
  | cons c text =>
    by_cases hc : c = '\n'
    · simp [hc, crlf_newline]
    · simp [crlf_cons_of_ne hc]

theorem mem_newline_crlf {text : List Char} : '\n' ∈ crlf text ↔ '\n' ∈ text := by
  constructor
  · intro h
    by_contra hn
    exact hn (crlf_eq_self hn ▸ h)
  · intro h
    exact List.mem_flatMap.2 ⟨'\n', h, by decide⟩

/-- A text of one line is written only for itself. -/
theorem crlf_eq_iff {text line : List Char} (h : '\n' ∉ line) : crlf text = line ↔ text = line := by
  constructor
  · intro he
    have hn : '\n' ∉ text := fun ht => h (he ▸ mem_newline_crlf.2 ht)
    rwa [crlf_eq_self hn] at he
  · rintro rfl
    exact crlf_eq_self h

/-- Different texts are written differently, unless returns stand before their line feeds. -/
theorem crlf_injective {s t : List Char} (hs : '\r' ∉ s) (ht : '\r' ∉ t) (h : crlf s = crlf t) :
    s = t := by
  induction s generalizing t with
  | nil => exact (crlf_eq_nil_iff.1 h.symm).symm
  | cons c s ih =>
    cases t with
    | nil => exact crlf_eq_nil_iff.1 h
    | cons d t =>
      have hs' : '\r' ∉ s := fun hm => hs (List.mem_cons_of_mem _ hm)
      have ht' : '\r' ∉ t := fun hm => ht (List.mem_cons_of_mem _ hm)
      by_cases hc : c = '\n'
      · by_cases hd : d = '\n'
        · subst hc hd
          simp only [crlf_newline, List.cons.injEq, true_and] at h
          rw [ih hs' ht' h]
        · subst hc
          rw [crlf_newline, crlf_cons_of_ne hd] at h
          exact absurd ((List.cons.inj h).1 ▸ List.mem_cons_self) ht
      · by_cases hd : d = '\n'
        · subst hd
          rw [crlf_newline, crlf_cons_of_ne hc] at h
          exact absurd ((List.cons.inj h).1 ▸ List.mem_cons_self) hs
        · rw [crlf_cons_of_ne hc, crlf_cons_of_ne hd, List.cons.injEq] at h
          rw [h.1, ih hs' ht' h.2]

/-- A text that is written with a mark in front has the mark in front. -/
theorem isPrefixOf?_crlf {mark : List Char} (h : OneLine mark) (text : List Char) :
    mark.isPrefixOf? (crlf text) = (mark.isPrefixOf? text).map crlf := by
  induction mark generalizing text with
  | nil => rfl
  | cons d mark ih =>
    obtain ⟨hr, hn⟩ := h
    rw [List.mem_cons, not_or] at hr hn
    cases text with
    | nil => rfl
    | cons c text =>
      by_cases hc : c = '\n'
      · subst hc
        have hd : ¬ d = '\r' := fun he => hr.1 he.symm
        have hd' : ¬ d = '\n' := fun he => hn.1 he.symm
        simp [crlf_newline, List.isPrefixOf?, hd, hd']
      · simp only [crlf_cons_of_ne hc, List.isPrefixOf?]
        by_cases hcd : d = c
        · simp [hcd, ih ⟨hr.2, hn.2⟩]
        · simp [hcd]

/-! ### Blanks -/

theorem skipBlank_crlf (text : List Char) : skipBlank (crlf text) = crlf (skipBlank text) := by
  induction text with
  | nil => rfl
  | cons c text ih =>
    by_cases hc : c = '\n'
    · subst hc
      rw [crlf_newline, skipBlank_cons, if_pos (by decide), skipBlank_cons, if_pos (by decide),
        skipBlank_cons, if_pos (by decide), ih]
    · rw [crlf_cons_of_ne hc, skipBlank_cons, skipBlank_cons, ih]
      split
      · rfl
      · rw [crlf_cons_of_ne hc]

/-- Blanks at the end of a text are skipped from its end. -/
theorem skipBlank_reverse_crlf (text : List Char) :
    (skipBlank (crlf text).reverse).reverse = crlf (skipBlank text.reverse).reverse := by
  induction text using List.reverseRecOn with
  | nil => rfl
  | append_singleton text c ih =>
    by_cases hc : c = '\n'
    · subst hc
      have hend : (crlf (text ++ ['\n'])).reverse = '\n' :: '\r' :: (crlf text).reverse := by
        rw [crlf_append, List.reverse_append]
        rfl
      rw [hend, skipBlank_cons, if_pos (by decide), skipBlank_cons, if_pos (by decide), ih,
        List.reverse_append, List.reverse_singleton, List.singleton_append, skipBlank_cons,
        if_pos (by decide)]
    · have hend : (crlf (text ++ [c])).reverse = c :: (crlf text).reverse := by
        rw [crlf_append, crlf_cons_of_ne hc, List.reverse_append]
        rfl
      rw [hend, List.reverse_append, List.reverse_singleton, List.singleton_append,
        skipBlank_cons, skipBlank_cons]
      split
      · exact ih
      · rw [List.reverse_cons, List.reverse_reverse, List.reverse_cons, List.reverse_reverse,
          crlf_append, crlf_cons_of_ne hc, crlf_nil]

theorem trim_crlf (text : List Char) : trim (crlf text) = crlf (trim text) := by
  rw [trim, skipBlank_crlf, skipBlank_reverse_crlf, trim]

theorem trim_subset (text : List Char) : trim text ⊆ text := by
  intro c hc
  have hend := (List.dropWhile_suffix _).subset (List.mem_reverse.1 hc)
  exact (List.dropWhile_suffix _).subset (List.mem_reverse.1 hend)

theorem all_isBlank_crlf (text : List Char) : (crlf text).all isBlank = text.all isBlank := by
  induction text with
  | nil => rfl
  | cons c text ih =>
    by_cases hc : c = '\n'
    · subst hc
      rw [crlf_newline, List.all_cons, List.all_cons, List.all_cons, ih]
      rfl
    · rw [crlf_cons_of_ne hc, List.all_cons, List.all_cons, ih]

/-! ### Lines -/

theorem linesFrom_crlf {text : List Char} (h : '\r' ∉ text) {line : List Char}
    (hline : '\r' ∉ line) : linesFrom line (crlf text) = linesFrom line text := by
  induction text generalizing line with
  | nil => rfl
  | cons c text ih =>
    rw [List.mem_cons, not_or] at h
    by_cases hc : c = '\n'
    · subst hc
      rw [crlf_newline, linesFrom_cons_of_ne (by decide), linesFrom_return,
        linesFrom_newline hline, ih h.2 List.not_mem_nil]
    · rw [crlf_cons_of_ne hc, linesFrom_cons_of_ne hc, linesFrom_cons_of_ne hc, ih h.2]
      rw [List.mem_cons, not_or]
      exact ⟨h.1, hline⟩

/-- The return before a line feed belongs to the end of the line. -/
theorem lines_crlf {text : List Char} (h : '\r' ∉ text) : lines (crlf text) = lines text :=
  linesFrom_crlf h List.not_mem_nil

/-! ### Groups and calls -/

def Group.crlf (g : Group) : Group := ⟨Text.crlf g.inner, Text.crlf g.after⟩

theorem Quoting.next_newline (q : Quoting) : (q.next '\r').next '\n' = q.next '\n' := by
  cases q <;> rfl

theorem Group.close?_crlf (depth : Nat) (quoting : Quoting) (read text : List Char) :
    close? depth quoting (Text.crlf read).reverse (Text.crlf text) =
      (close? depth quoting read.reverse text).map crlf := by
  induction text generalizing depth quoting read with
  | nil => simp [close?]
  | cons c text ih =>
    have hstep : ∀ depth quoting, c ≠ '\n' →
        close? depth quoting (c :: (Text.crlf read).reverse) (Text.crlf text) =
          (close? depth quoting (c :: read.reverse) text).map crlf := by
      intro depth quoting hc
      have h := ih depth quoting (read ++ [c])
      rwa [crlf_append, crlf_cons_of_ne hc, crlf_nil, List.reverse_append,
        List.reverse_append] at h
    by_cases hc : c = '\n'
    · subst hc
      have h := ih depth (quoting.next '\n') (read ++ ['\n'])
      rw [crlf_append, crlf_newline, crlf_nil, List.reverse_append, List.reverse_append] at h
      rw [crlf_newline, close?_cons, if_neg (by simp), if_neg (by simp), close?_cons,
        if_neg (by simp), if_neg (by simp), Quoting.next_newline, close?_cons, if_neg (by simp),
        if_neg (by simp)]
      exact h
    · rw [crlf_cons_of_ne hc, close?_cons, close?_cons]
      split
      next hclose =>
        cases depth with
        | zero => simp [crlf]
        | succ depth =>
          rw [← hclose.2]
          exact hstep depth .plain hc
      · split
        next hopen =>
          rw [← hopen.2]
          exact hstep (depth + 1) .plain hc
        · exact hstep depth (quoting.next c) hc

theorem Group.ofText?_crlf (text : List Char) :
    ofText? (Text.crlf text) = (ofText? text).map crlf := by
  cases text with
  | nil => rfl
  | cons c text =>
    by_cases hc : c = '\n'
    · subst hc
      rfl
    · rw [crlf_cons_of_ne hc]
      by_cases hopen : c = '('
      · subst hopen
        exact close?_crlf 0 .plain [] text
      · simp [ofText?, hopen]

theorem groupAt?_crlf {name : List Char} (h : OneLine name) (glued : Bool) (text : List Char) :
    groupAt? name glued (crlf text) = (groupAt? name glued text).map Group.crlf := by
  rw [groupAt?, groupAt?, isPrefixOf?_crlf h]
  cases name.isPrefixOf? text with
  | none => rfl
  | some rest =>
    simp only [Option.map_some, Option.bind_some]
    cases glued with
    | true => rfl
    | false => simp [skipBlank_crlf, Group.ofText?_crlf]

/-! ### Sweeps -/

/-- Where a place of a text lies in the written form. -/
def crlfPlace (text : List Char) (place : Nat) : Nat := (crlf (text.take place)).length

/-- A look that sees in the written form what it sees in the text. -/
structure Look.Crlf {α : Type} (look : Look α) (f : α → α) : Prop where
  newline : ∀ glued c text, c = '\n' ∨ c = '\r' → look glued (c :: text) = (none, 0)
  found : ∀ glued c text, c ≠ '\n' →
    (look glued (crlf (c :: text))).1 = (look glued (c :: text)).1.map f
  passed : ∀ glued c text, c ≠ '\n' →
    (look glued (crlf (c :: text))).2 = (crlf (text.take (look glued (c :: text)).2)).length

theorem sweep_crlf {α : Type} {look : Look α} {f : α → α} (h : look.Crlf f)
    (before : List Char) (glued : Bool) (skip : Nat) (text : List Char) :
    sweep look (crlf before).length glued (crlf (text.take skip)).length (crlf text) =
      (sweep look before.length glued skip text).map fun p =>
        (crlfPlace (before ++ text) p.1, f p.2) := by
  induction text generalizing before glued skip with
  | nil => simp [sweep]
  | cons c text ih =>
    have happend : before ++ c :: text = (before ++ [c]) ++ text := by simp
    have hlength : (before ++ [c]).length = before.length + 1 := by simp
    by_cases hc : c = '\n'
    · subst hc
      have hwritten : (crlf (before ++ ['\n'])).length = (crlf before).length + 1 + 1 := by
        simp [crlf_newline]
      cases skip with
      | zero =>
        rw [sweep, h.newline _ _ _ (.inl rfl), crlf_newline, List.take_zero, crlf_nil,
          List.length_nil, sweep, h.newline _ _ _ (.inr rfl), sweep,
          h.newline _ _ _ (.inl rfl), happend, ← hlength, ← hwritten]
        exact ih (before ++ ['\n']) false 0
      | succ skip =>
        rw [sweep, crlf_newline, List.take_succ_cons, crlf_newline, List.length_cons,
          List.length_cons, sweep, sweep, happend, ← hlength, ← hwritten]
        exact ih (before ++ ['\n']) false skip
    · have hwritten : (crlf (before ++ [c])).length = (crlf before).length + 1 := by
        simp [crlf_cons_of_ne hc]
      cases skip with
      | zero =>
        have hfound := h.found glued c text hc
        have hpassed := h.passed glued c text hc
        rw [crlf_cons_of_ne hc] at hfound hpassed
        rw [crlf_cons_of_ne hc, List.take_zero, crlf_nil, List.length_nil, sweep, sweep, hfound,
          hpassed, ← hwritten, ih, List.map_append, hlength, happend]
        congr 1
        cases (look glued (c :: text)).1 with
        | none => rfl
        | some a => simp [crlfPlace]
      | succ skip =>
        rw [sweep, crlf_cons_of_ne hc, List.take_succ_cons, crlf_cons_of_ne hc, List.length_cons,
          sweep, happend, ← hlength, ← hwritten]
        exact ih (before ++ [c]) (isWordChar c) skip

theorem prefix_crlf_iff {mark : List Char} (h : OneLine mark) (text : List Char) :
    mark <+: crlf text ↔ mark <+: text := by
  rw [← List.isPrefixOf_iff_prefix, ← List.isPrefixOf_iff_prefix,
    ← List.isSome_isPrefixOf?_eq_isPrefixOf, ← List.isSome_isPrefixOf?_eq_isPrefixOf,
    isPrefixOf?_crlf h, Option.isSome_map]

/-- No line ends in what a name passes over. -/
theorem stride_crlf {name : List Char} (h : OneLine name) {c : Char} (hc : c ≠ '\n')
    (text : List Char) :
    stride name (crlf (c :: text)) = (crlf (text.take (stride name (c :: text)))).length := by
  simp only [stride, prefix_crlf_iff h]
  split
  next hp =>
    obtain ⟨rest, hrest⟩ := hp
    cases name with
    | nil => simp
    | cons d name =>
      obtain ⟨rfl, rfl⟩ := List.cons.inj hrest
      have hname : '\n' ∉ name := fun hm => h.noFeed (List.mem_cons_of_mem _ hm)
      simp [crlf_eq_self hname]
  · simp

theorem not_prefix_of_lineEnd {name : List Char} (h : OneLine name) (hne : name ≠ []) {c : Char}
    (hc : c = '\n' ∨ c = '\r') (text : List Char) : ¬ name <+: c :: text := by
  rintro ⟨rest, hrest⟩
  cases name with
  | nil => exact hne rfl
  | cons d name =>
    obtain ⟨rfl, -⟩ := List.cons.inj hrest
    rcases hc with rfl | rfl
    · exact h.noFeed List.mem_cons_self
    · exact h.noReturn List.mem_cons_self

theorem groupAt?_of_lineEnd {name : List Char} (h : OneLine name) (hne : name ≠ []) {c : Char}
    (hc : c = '\n' ∨ c = '\r') (glued : Bool) (text : List Char) :
    groupAt? name glued (c :: text) = none := by
  rw [groupAt?, Option.bind_eq_none_iff]
  intro rest hrest
  exact absurd ⟨rest, List.isPrefixOf?_eq_some_iff_append_eq.1 hrest⟩
    (not_prefix_of_lineEnd h hne hc text)

theorem crlf_lookCall {name : List Char} (h : OneLine name) (hne : name ≠ []) :
    (lookCall name).Crlf Group.crlf where
  newline glued c text hc := by
    rw [lookCall, groupAt?_of_lineEnd h hne hc, stride,
      if_neg (not_prefix_of_lineEnd h hne hc text)]
  found glued c text _ := by
    rw [lookCall, lookCall, groupAt?_crlf h]
    cases groupAt? name glued (c :: text) <;> rfl
  passed glued c text hc := by
    rw [lookCall, lookCall, groupAt?_crlf h]
    cases hg : groupAt? name glued (c :: text) with
    | none => exact stride_crlf h hc text
    | some g =>
      -- both skips reach up to what follows the group
      obtain ⟨d, read, htext⟩ := exists_read_of_groupAt? hg
      obtain ⟨front, rfl⟩ : ∃ front, text = front ++ g.after :=
        ⟨read ++ [')'], by simpa using (List.cons.inj htext).2⟩
      simp [crlf_cons_of_ne hc, Group.crlf]

theorem crlf_lookWord {word : List Char} (h : OneLine word) (hne : word ≠ []) :
    (lookWord word).Crlf crlf where
  newline glued c text hc := by
    have hn := not_prefix_of_lineEnd h hne hc text
    have hnone : word.isPrefixOf? (c :: text) = none := by
      cases hp : word.isPrefixOf? (c :: text) with
      | none => rfl
      | some rest => exact absurd ⟨rest, List.isPrefixOf?_eq_some_iff_append_eq.1 hp⟩ hn
    rw [lookWord, hnone, stride, if_neg hn]
    rfl
  found glued c text _ := by
    simp only [lookWord, isPrefixOf?_crlf h]
    cases word.isPrefixOf? (c :: text) with
    | none => rfl
    | some after =>
      have hends : endsWord (crlf after) = endsWord after := by
        cases after with
        | nil => rfl
        | cons d after =>
          by_cases hd : d = '\n'
          · subst hd
            rfl
          · rw [crlf_cons_of_ne hd]
            rfl
      simp only [Option.map_some, Option.bind_some, hends]
      split <;> rfl
  passed glued c text hc := stride_crlf h hc text

def Call.crlf (text : List Char) (c : Call) : Call :=
  ⟨crlfPlace text c.place, Text.crlf c.args, Text.crlf c.after⟩

def Occurrence.crlf (text : List Char) (o : Occurrence) : Occurrence :=
  ⟨crlfPlace text o.place, Text.crlf o.after⟩

theorem calls_crlf {name : String} (h : OneLine name.toList) (hne : name.toList ≠ [])
    (text : List Char) : calls name (crlf text) = (calls name text).map (Call.crlf text) := by
  have hs := sweep_crlf (crlf_lookCall h hne) [] false 0 text
  rw [List.take_zero, crlf_nil, List.nil_append] at hs
  rw [calls, calls, callsFrom_eq_sweep, callsFrom_eq_sweep, ← List.length_nil (α := Char), hs,
    List.map_map, List.map_map]
  rfl

theorem occurrences_crlf {word : String} (h : OneLine word.toList) (hne : word.toList ≠ [])
    (text : List Char) :
    occurrences word (crlf text) = (occurrences word text).map (Occurrence.crlf text) := by
  have hs := sweep_crlf (crlf_lookWord h hne) [] false 0 text
  rw [List.take_zero, crlf_nil, List.nil_append] at hs
  rw [occurrences, occurrences, occurrencesFrom_eq_sweep hne, occurrencesFrom_eq_sweep hne,
    ← List.length_nil (α := Char), hs, List.map_map, List.map_map]
  rfl

theorem firstCall?_crlf {name : String} (h : OneLine name.toList) (hne : name.toList ≠ [])
    (text : List Char) :
    firstCall? name (crlf text) = (firstCall? name text).map (Call.crlf text) := by
  rw [firstCall?, calls_crlf h hne, List.head?_map, firstCall?]

/-! ### Arguments, literals and marks -/

theorem piecesFrom_crlf (depth : Nat) (quoting : Quoting) (piece text : List Char) :
    piecesFrom depth quoting (crlf piece).reverse (crlf text) =
      (piecesFrom depth quoting piece.reverse text).map crlf := by
  induction text generalizing depth quoting piece with
  | nil => simp [piecesFrom]
  | cons c text ih =>
    by_cases hc : c = '\n'
    · subst hc
      have h := ih depth (quoting.next '\n') (piece ++ ['\n'])
      rw [crlf_append, crlf_newline, crlf_nil, List.reverse_append, List.reverse_append] at h
      rw [crlf_newline, piecesFrom_cons, if_neg (by simp), piecesFrom_cons, if_neg (by simp),
        Quoting.next_newline, piecesFrom_cons, if_neg (by simp)]
      simpa [depthAfter] using h
    · have h := ih (depthAfter quoting depth c) (quoting.next c) (piece ++ [c])
      rw [crlf_append, crlf_cons_of_ne hc, crlf_nil, List.reverse_append,
        List.reverse_append] at h
      rw [crlf_cons_of_ne hc, piecesFrom_cons, piecesFrom_cons]
      split
      · have hnext := ih 0 .plain []
        rw [crlf_nil, List.reverse_nil] at hnext
        rw [hnext, List.reverse_reverse, List.map_cons, List.reverse_reverse]
      · exact h

theorem arguments_crlf (text : List Char) :
    arguments (crlf text) = (arguments text).map crlf := by
  rw [arguments, arguments, all_isBlank_crlf]
  split
  · rfl
  · have hpieces := piecesFrom_crlf 0 .plain [] text
    rw [crlf_nil, List.reverse_nil] at hpieces
    rw [hpieces, List.map_map, List.map_map]
    exact List.map_congr_left fun piece _ => trim_crlf piece

/-- Where a character that ends no line stands in the written form, it stands in the text. -/
theorem exists_of_crlf_eq {text front back : List Char} {c : Char} (hc : OneLine [c])
    (h : crlf text = front ++ c :: back) :
    ∃ a b, text = a ++ c :: b ∧ crlf a = front ∧ crlf b = back := by
  have hr : c ≠ '\r' := fun he => hc.noReturn (by simp [he])
  have hn : c ≠ '\n' := fun he => hc.noFeed (by simp [he])
  induction text generalizing front with
  | nil => simp at h
  | cons d text ih =>
    by_cases hd : d = '\n'
    · subst hd
      rw [crlf_newline] at h
      -- the two characters of a line's end stand in front
      obtain ⟨front, rfl⟩ : ∃ rest, front = '\r' :: '\n' :: rest := by
        cases front with
        | nil => exact absurd (List.cons.inj h).1.symm hr
        | cons e front =>
          cases front with
          | nil => exact absurd (List.cons.inj (List.cons.inj h).2).1.symm hn
          | cons e' front =>
            simp only [List.cons_append, List.cons.injEq] at h
            exact ⟨front, by rw [h.1, h.2.1]⟩
      obtain ⟨a, b, rfl, rfl, rfl⟩ := ih (List.cons.inj (List.cons.inj h).2).2
      exact ⟨'\n' :: a, b, rfl, rfl, rfl⟩
    · rw [crlf_cons_of_ne hd] at h
      cases front with
      | nil =>
        obtain ⟨rfl, rfl⟩ := List.cons.inj h
        exact ⟨[], text, rfl, rfl, rfl⟩
      | cons e front =>
        rw [List.cons_append, List.cons.injEq] at h
        obtain ⟨rfl, h⟩ := h
        obtain ⟨a, b, rfl, rfl, rfl⟩ := ih h
        exact ⟨d :: a, b, rfl, crlf_cons_of_ne hd a, rfl⟩

theorem unquote?_crlf (text : List Char) : unquote? (crlf text) = (unquote? text).map crlf := by
  apply Option.ext
  intro inner
  rw [unquote?_eq_some_iff, trim_crlf, Option.map_eq_some_iff]
  simp only [unquote?_eq_some_iff]
  constructor
  · intro h
    obtain ⟨front, b, htrim, hfront, hb⟩ := exists_of_crlf_eq (by decide) h
    obtain rfl := crlf_eq_nil_iff.1 hb
    obtain ⟨a, s, rfl, ha, hs⟩ := @exists_of_crlf_eq _ [] _ '"' (by decide) hfront
    obtain rfl := crlf_eq_nil_iff.1 ha
    exact ⟨s, htrim, hs⟩
  · rintro ⟨s, htrim, rfl⟩
    rw [htrim, crlf_append, crlf_cons_of_ne (by decide), crlf_cons_of_ne (by decide), crlf_nil]

theorem splitBefore?_crlf {mark : List Char} (h : OneLine mark) (hne : mark ≠ [])
    (before text : List Char) :
    splitBefore? mark (crlf before).reverse (crlf text) =
      (splitBefore? mark before.reverse text).map fun p => (crlf p.1, crlf p.2) := by
  have hempty : mark.isEmpty = false := by simpa using hne
  induction text generalizing before with
  | nil => simp [splitBefore?, hempty]
  | cons c text ih =>
    have hstep := ih (before ++ [c])
    rw [crlf_append, List.reverse_append, List.reverse_append] at hstep
    by_cases hc : c = '\n'
    · subst hc
      have hnot : ∀ {d : Char} {rest}, d = '\n' ∨ d = '\r' → mark.isPrefixOf (d :: rest) = false :=
        fun hd => Bool.eq_false_iff.2 fun hp =>
          not_prefix_of_lineEnd h hne hd _ (List.isPrefixOf_iff_prefix.1 hp)
      simp only [crlf_newline, splitBefore?, hnot (.inl rfl), hnot (.inr rfl)]
      exact hstep
    · have hiff : mark.isPrefixOf (c :: crlf text) = mark.isPrefixOf (c :: text) := by
        rw [← crlf_cons_of_ne hc, Bool.eq_iff_iff, List.isPrefixOf_iff_prefix,
          List.isPrefixOf_iff_prefix, prefix_crlf_iff h]
      rw [crlf_cons_of_ne hc] at hstep ⊢
      simp only [splitBefore?, hiff]
      split
      · simp [crlf_cons_of_ne hc]
      · exact hstep

theorem before?_crlf {mark : String} (h : OneLine mark.toList) (hne : mark.toList ≠ [])
    (text : List Char) : before? mark (crlf text) = (before? mark text).map crlf := by
  have hs := splitBefore?_crlf h hne [] text
  rw [crlf_nil, List.reverse_nil] at hs
  rw [before?, hs, before?, Option.map_map, Option.map_map]
  rfl

theorem takeWhile_word_crlf (text : List Char) :
    (crlf text).takeWhile isWordChar = text.takeWhile isWordChar ∧
      (crlf text).dropWhile isWordChar = crlf (text.dropWhile isWordChar) := by
  induction text with
  | nil => exact ⟨rfl, rfl⟩
  | cons c text ih =>
    by_cases hc : c = '\n'
    · subst hc
      exact ⟨rfl, rfl⟩
    · rw [crlf_cons_of_ne hc, List.takeWhile_cons, List.takeWhile_cons, List.dropWhile_cons,
        List.dropWhile_cons, ih.1, ih.2]
      split
      · exact ⟨rfl, rfl⟩
      · exact ⟨rfl, (crlf_cons_of_ne hc text).symm⟩

theorem identifier?_crlf (text : List Char) :
    identifier? (crlf text) = (identifier? text).map fun p => (p.1, crlf p.2) := by
  rw [identifier?, identifier?, (takeWhile_word_crlf text).1, (takeWhile_word_crlf text).2]
  split <;> rfl

/-- Identifiers lie within one line. -/
theorem oneLine_of_all_isWordChar {name : List Char} (h : name.all isWordChar) : OneLine name := by
  rw [List.all_eq_true] at h
  exact ⟨fun hm => absurd (h _ hm) (by decide), fun hm => absurd (h _ hm) (by decide)⟩

end LcdHandhelds.Text

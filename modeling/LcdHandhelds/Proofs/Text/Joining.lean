import LcdHandhelds.Proofs.Text.CallSearch
import LcdHandhelds.Proofs.Text.Printed

/-!
Argument lists as pieces that commas join. The joined texts are those whose depth nowhere falls
below zero and that end outside of groups and literals (`balanced_iff_level`), the arguments of every
call among them, and they are split at the commas that stand outside of both: `splitting_arguments`.
-/
namespace LcdHandhelds.Text

open scoped List

/-! ### Levels -/

/-- How many groups are open, below zero behind a surplus parenthesis, and whether a literal is. -/
structure Level where
  depth : Int
  quoting : Quoting
  deriving DecidableEq, Repr

namespace Level

/-- Outside of groups and literals. -/
def top : Level := ⟨0, .plain⟩

def next (l : Level) (c : Char) : Level where
  depth :=
    if l.quoting = .plain ∧ c = '(' then l.depth + 1
    else if l.quoting = .plain ∧ c = ')' then l.depth - 1
    else l.depth
  quoting := l.quoting.next c

/-- The level behind a text that begins at a level. -/
def after (l : Level) (text : List Char) : Level :=
  text.foldl next l

@[simp] theorem after_nil (l : Level) : l.after [] = l := rfl

@[simp] theorem after_cons (l : Level) (c : Char) (text : List Char) :
    l.after (c :: text) = (l.next c).after text := rfl

/-- The depth is zero or more in front of each character and at the end. -/
def Nonneg (l : Level) (text : List Char) : Prop :=
  ∀ front, front <+: text → 0 ≤ (l.after front).depth

theorem nonneg_nil_iff {l : Level} : l.Nonneg [] ↔ 0 ≤ l.depth := by
  simp [Nonneg]

theorem nonneg_cons_iff {l : Level} {c : Char} {text : List Char} :
    l.Nonneg (c :: text) ↔ 0 ≤ l.depth ∧ (l.next c).Nonneg text := by
  simp only [Nonneg, List.prefix_cons_iff]
  constructor
  · intro h
    exact ⟨h [] (.inl rfl), fun front hfront => h (c :: front) (.inr ⟨front, rfl, hfront⟩)⟩
  · rintro ⟨hhere, h⟩ front (rfl | ⟨front, rfl, hfront⟩)
    · exact hhere
    · exact h front hfront

/-- How many commas stand outside of groups and literals, in a text that begins at a level. -/
def commas (l : Level) (text : List Char) : Nat :=
  (List.range text.length).countP fun i => text[i]? = some ',' ∧ l.after (text.take i) = top

theorem commas_cons (l : Level) (c : Char) (text : List Char) :
    l.commas (c :: text) = (if c = ',' ∧ l = top then 1 else 0) + (l.next c).commas text := by
  rw [commas, List.length_cons, List.range_succ_eq_map, List.countP_cons, List.countP_map,
    Nat.add_comm]
  congr 1
  simp

theorem Nonneg.depth {l : Level} {text : List Char} (h : l.Nonneg text) : 0 ≤ l.depth :=
  h [] List.nil_prefix

/-- Above zero, the depth is that of a scan that never goes below it. -/
theorem next_eq {depth : Nat} {quoting : Quoting} {c : Char}
    (h : 0 ≤ (next ⟨depth, quoting⟩ c).depth) :
    next ⟨depth, quoting⟩ c = ⟨depthAfter quoting depth c, quoting.next c⟩ := by
  simp only [next, depthAfter, Level.mk.injEq, and_true] at h ⊢
  split
  · rfl
  · split
    · rw [if_neg ‹_›, if_pos ‹_›] at h
      omega
    · rfl

end Level

/-! ### Both scanners by level -/

/-- The arguments that are split off are one more than the commas at the top. -/
theorem length_piecesFrom {depth : Nat} {quoting : Quoting} {text : List Char}
    (h : Level.Nonneg ⟨depth, quoting⟩ text) (piece : List Char) :
    (piecesFrom depth quoting piece text).length = 1 + Level.commas ⟨depth, quoting⟩ text := by
  induction text generalizing depth quoting piece with
  | nil => rfl
  | cons c text ih =>
    have hnext := (Level.nonneg_cons_iff.1 h).2
    rw [piecesFrom_cons, Level.commas_cons, Level.next_eq hnext.depth]
    rw [Level.next_eq hnext.depth] at hnext
    by_cases hcomma : depth = 0 ∧ quoting = .plain ∧ c = ','
    · obtain ⟨rfl, rfl, rfl⟩ := hcomma
      have hrest : (piecesFrom 0 .plain [] text).length = _ := ih hnext []
      rw [if_pos ⟨rfl, rfl, rfl⟩, if_pos ⟨rfl, rfl⟩, List.length_cons, hrest, Nat.add_comm]
    · have htop : ¬ (c = ',' ∧ (⟨depth, quoting⟩ : Level) = .top) := by
        rintro ⟨hc, hlevel⟩
        obtain ⟨hdepth, hquoting⟩ := Level.mk.inj hlevel
        exact hcomma ⟨Int.ofNat_eq_zero.1 hdepth, hquoting, hc⟩
      rw [if_neg hcomma, if_neg htop, ih hnext, Nat.zero_add]

/-- A group does not end in front of the text that is still to be read. -/
theorem close?_ne_some {depth : Nat} {quoting : Quoting} {read inner text : List Char} :
    Group.close? depth quoting read text ≠ some ⟨inner, text⟩ := by
  intro h
  obtain ⟨front, htext⟩ := Group.exists_append_of_close? h
  have hlength : text.length = (front ++ ')' :: text).length := congrArg List.length htext
  rw [List.length_append, List.length_cons] at hlength
  omega

/-- A group is closed by the first parenthesis behind which the depth would fall below zero. -/
theorem close?_append_eq_some_iff {depth : Nat} {quoting : Quoting} {inner text rest : List Char} :
    Group.close? depth quoting inner (text ++ ')' :: rest) = some ⟨inner.reverse ++ text, rest⟩ ↔
      Level.Nonneg ⟨depth, quoting⟩ text ∧ Level.after ⟨depth, quoting⟩ text = .top := by
  induction text generalizing depth quoting inner with
  | nil =>
    have htop : (⟨depth, quoting⟩ : Level) = .top ↔ depth = 0 ∧ quoting = .plain := by
      simp [Level.top]
    rw [Level.nonneg_nil_iff, Level.after_nil, and_iff_right (Int.natCast_nonneg depth), htop,
      List.nil_append, List.append_nil, Group.close?_cons]
    by_cases hplain : quoting = .plain
    · subst hplain
      cases depth with
      | zero => simp
      | succ depth => simp [close?_ne_some]
    · simp [hplain, close?_ne_some]
  | cons c text ih =>
    have hinner : inner.reverse ++ c :: text = (c :: inner).reverse ++ text := by simp
    rw [Level.nonneg_cons_iff, and_iff_right (Int.natCast_nonneg depth), Level.after_cons,
      List.cons_append, Group.close?_cons, hinner]
    by_cases hclose : quoting = .plain ∧ c = ')'
    · obtain ⟨rfl, rfl⟩ := hclose
      rw [if_pos ⟨rfl, rfl⟩]
      cases depth with
      | zero =>
        -- the group ends here, too early, and the depth falls below zero
        have hearly : text ++ ')' :: rest ≠ rest := fun h =>
          absurd (congrArg List.length h) (by rw [List.length_append, List.length_cons]; omega)
        have hbelow : ¬ (Level.next ⟨(0 : Nat), .plain⟩ ')').Nonneg text := fun h =>
          absurd h.depth (by decide)
        exact iff_of_false (fun h => hearly (congrArg Group.after (Option.some.inj h)))
          fun h => hbelow h.1
      | succ depth =>
        have hnext : Level.next ⟨(depth + 1 : Nat), .plain⟩ ')' = ⟨depth, .plain⟩ := by
          simp [Level.next, Quoting.next]
        rw [hnext]
        exact ih
    · rw [if_neg hclose]
      by_cases hopen : quoting = .plain ∧ c = '('
      · obtain ⟨rfl, rfl⟩ := hopen
        exact ih
      · have hnext : Level.next ⟨depth, quoting⟩ c = ⟨depth, quoting.next c⟩ := by
          simp [Level.next, hclose, hopen]
        rw [if_neg hopen, hnext]
        exact ih

theorem balanced_iff_level {text : List Char} :
    Balanced text ↔ Level.top.Nonneg text ∧ Level.top.after text = .top := by
  have hgroup : Group.ofText? ('(' :: (text ++ [')'])) = some ⟨text, []⟩ ↔ Balanced text := by
    rw [Group.ofText?_eq_some_iff]
    exact and_iff_right (List.cons_append).symm
  rw [← hgroup]
  exact close?_append_eq_some_iff

/-! ### Joined texts -/

/-- Closed pieces, each with blanks around it, joined with commas. -/
def IsJoined (text : List Char) : Prop :=
  ∃ (p : Padded) (rest : List Padded), (∀ q ∈ p :: rest, Closed q.argument) ∧
    text = commaSeparated (p :: rest)

theorem isJoined_iff_balanced {text : List Char} : IsJoined text ↔ Balanced text := by
  constructor
  · rintro ⟨p, rest, hclosed, rfl⟩
    exact balanced_commaSeparated fun q hq => (hclosed q hq).balanced
  · intro h
    obtain ⟨piece, pieces, hclosed, rfl⟩ := h.exists_pieces
    let bare : List Char → Padded := fun piece => ⟨.none, piece, .none⟩
    have htext : ∀ piece, (bare piece).text = piece := fun piece => by simp [bare, Padded.text]
    refine ⟨bare piece, pieces.map bare, ?_, ?_⟩
    · rw [← List.map_cons, List.forall_mem_map]
      exact hclosed
    · rw [commaSeparated_eq_intercalate, ← List.map_cons, List.map_map]
      simp [Function.comp_def, htext]

/-- The arguments of a call are balanced, as its group is. -/
theorem balanced_args_of_mem_calls {name : String} {text : List Char} {c : Call}
    (h : c ∈ calls name text) : Balanced c.args := by
  obtain ⟨before, rest, -, -, -, hg⟩ := exists_groupAt?_of_mem_calls h
  obtain ⟨tail, -, hif⟩ := Option.bind_eq_some_iff.1 hg
  rw [if_neg Bool.false_ne_true] at hif
  exact (Group.ofText?_eq_some_iff.1 hif).2

/-- How the arguments that a text is split into stand to the pieces it is joined from. -/
structure Splitting (text : List Char) : Prop where
  /-- It is split into the pieces, in their order, and a blank piece alone is none. -/
  undone : ∀ p rest, text = commaSeparated (p :: rest) → (∀ q ∈ p :: rest, Closed q.argument) →
    arguments text =
      if rest = [] ∧ p.argument.all isBlank then [] else (p :: rest).map fun q => trim q.argument
  /-- The depth, which counts a surplus parenthesis too, tells what is joined. -/
  joined_iff : IsJoined text ↔
    (∀ front, front <+: text → 0 ≤ (Level.top.after front).depth) ∧ Level.top.after text = .top
  /-- What stands between the parentheses of a call is joined. -/
  called : ∀ name source, ∀ c ∈ calls name source, c.args = text → IsJoined text
  /-- The arguments are one more than the commas outside of groups and literals. -/
  counted : IsJoined text →
    (arguments text).length = if text.all isBlank then 0 else 1 + Level.top.commas text

/-- Splitting undoes joining, and whatever a call is read with is joined. -/
theorem splitting_arguments (text : List Char) : Splitting text where
  undone p rest htext hclosed := htext ▸ arguments_commaSeparated_of_closed hclosed
  joined_iff := isJoined_iff_balanced.trans balanced_iff_level
  called name source c hc htext := htext ▸ isJoined_iff_balanced.2 (balanced_args_of_mem_calls hc)
  counted hjoined := by
    have hlevel := balanced_iff_level.1 (isJoined_iff_balanced.1 hjoined)
    rw [arguments]
    split
    · rfl
    · rw [List.length_map]
      exact length_piecesFrom hlevel.1 []

end LcdHandhelds.Text

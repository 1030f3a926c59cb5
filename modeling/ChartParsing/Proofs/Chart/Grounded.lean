import ChartParsing.Proofs.Chart.Scratch
import Mathlib.Data.Finset.Card
import Mathlib.Data.Finset.Range
import Mathlib.Data.Fintype.EquivFin
import Mathlib.Logic.Relation

/-!
# Grounded entries

An entry is grounded if following unary pointers from it leads to one that is not unary.
This is said of look-ups, which a table gives while a cell is filled and the cell when it is
done. One entry can be exchanged for another one and leave all entries grounded if the new
entry is grounded by itself; it is if no pointer leads down in score and the new one is
above the old one.
-/

namespace ChartParsing

/-- So many unary pointers lead from a non-terminal to an entry that is not unary. -/
inductive Follows (look : UInt16 → Option ChartEntry) : Nat → UInt16 → Prop
  | plain {nt e} (he : look nt = some e) (hplain : ∀ child, e.children ≠ .unary child) :
      Follows look 0 nt
  | unary {steps nt e child} (he : look nt = some e) (hchild : e.children = .unary child)
      (h : Follows look steps child) : Follows look (steps + 1) nt

/-- Following unary pointers ends. -/
def Grounded (look : UInt16 → Option ChartEntry) (nt : UInt16) : Prop :=
  ∃ steps, Follows look steps nt

variable {look look' : UInt16 → Option ChartEntry} {nt : UInt16}

theorem Grounded.plain {e : ChartEntry} (he : look nt = some e)
    (hplain : ∀ child, e.children ≠ .unary child) : Grounded look nt := ⟨0, .plain he hplain⟩

theorem Grounded.unary {e : ChartEntry} {child : UInt16} (he : look nt = some e)
    (hchild : e.children = .unary child) (h : Grounded look child) : Grounded look nt := by
  obtain ⟨steps, h⟩ := h
  exact ⟨steps + 1, .unary he hchild h⟩

/-! ## Exchanging an entry -/

/-- Entries that are added leave the others grounded. -/
theorem Follows.mono (hkept : ∀ nt e, look nt = some e → look' nt = some e) {steps : Nat}
    (h : Follows look steps nt) : Follows look' steps nt := by
  induction h with
  | plain he hplain => exact .plain (hkept _ _ he) hplain
  | unary he hchild h ih => exact .unary (hkept _ _ he) hchild ih

/-- Where one entry is changed, the others are grounded as before if the changed one is. -/
theorem Follows.exchange {top : UInt16} (hsame : ∀ nt, nt ≠ top → look' nt = look nt)
    (htop : Grounded look' top) {steps : Nat} (h : Follows look steps nt) :
    Grounded look' nt := by
  induction h with
  | @plain nt e he hplain =>
    by_cases heq : nt = top
    · rwa [heq]
    · exact .plain ((hsame nt heq).trans he) hplain
  | @unary steps nt e child he hchild h ih =>
    by_cases heq : nt = top
    · rwa [heq]
    · exact .unary ((hsame nt heq).trans he) hchild ih

/-- No unary pointer leads to a lower score. -/
def Ascending (look : UInt16 → Option ChartEntry) : Prop :=
  ∀ nt e child, look nt = some e → e.children = .unary child →
    ∃ d, look child = some d ∧ e.inside ≤ d.inside

/-- Where no pointer leads down, a chain from an entry either misses the changed one or
starts no higher than it. -/
theorem Follows.misses {top : UInt16} (hsame : ∀ nt, nt ≠ top → look' nt = look nt)
    (hascending : Ascending look) {d : ChartEntry} (hd : look top = some d) {steps : Nat}
    (h : Follows look steps nt) {e : ChartEntry} (he : look nt = some e)
    (hnumber : e.inside.isNaN = false) : Grounded look' nt ∨ e.inside ≤ d.inside := by
  induction h generalizing e with
  | @plain nt e' he' hplain =>
    by_cases heq : nt = top
    · rw [heq, hd] at he
      cases he
      exact Or.inr (Score.le_self hnumber)
    · exact Or.inl (.plain ((hsame nt heq).trans he') hplain)
  | @unary steps nt e' child he' hchild h ih =>
    obtain rfl : e' = e := Option.some.inj (he'.symm.trans he)
    obtain ⟨c, hc, hle⟩ := hascending nt e' child he hchild
    by_cases heq : nt = top
    · rw [heq, hd] at he
      cases he
      exact Or.inr (Score.le_self hnumber)
    · rcases ih hc (Score.le_iff.1 hle).2.1 with hchild' | hle'
      · exact Or.inl (.unary ((hsame nt heq).trans he) hchild hchild')
      · exact Or.inr (Score.le_trans hle hle')

/-- Where no pointer leads down, a chain ends no lower than it starts. -/
theorem Follows.exists_plain (hascending : Ascending look) {steps : Nat}
    (h : Follows look steps nt) {e : ChartEntry} (he : look nt = some e)
    (hnumber : e.inside.isNaN = false) :
    ∃ m d, look m = some d ∧ (∀ child, d.children ≠ .unary child) ∧ e.inside ≤ d.inside := by
  induction h generalizing e with
  | @plain nt e' he' hplain =>
    obtain rfl : e' = e := Option.some.inj (he'.symm.trans he)
    exact ⟨nt, e', he, hplain, Score.le_self hnumber⟩
  | @unary steps nt e' child he' hchild h ih =>
    obtain rfl : e' = e := Option.some.inj (he'.symm.trans he)
    obtain ⟨c, hc, hle⟩ := hascending nt e' child he hchild
    obtain ⟨m, d, hd, hplain, hle'⟩ := ih hc (Score.le_iff.1 hle).2.1
    exact ⟨m, d, hd, hplain, Score.le_trans hle hle'⟩

/-! ## The length of a chain -/

theorem Follows.exists_entry {steps : Nat} (h : Follows look steps nt) :
    ∃ e, look nt = some e := by
  cases h with
  | plain he => exact ⟨_, he⟩
  | unary he => exact ⟨_, he⟩

theorem Follows.unique {steps steps' : Nat} (h : Follows look steps nt)
    (h' : Follows look steps' nt) : steps = steps' := by
  induction h generalizing steps' with
  | plain he hplain =>
    cases h' with
    | plain => rfl
    | unary he' hchild =>
      rw [he] at he'
      cases he'
      exact absurd hchild (hplain _)
  | unary he hchild h ih =>
    cases h' with
    | plain he' hplain =>
      rw [he] at he'
      cases he'
      exact absurd hchild (hplain _)
    | unary he' hchild' h' =>
      rw [he] at he'
      cases he'
      rw [hchild] at hchild'
      cases hchild'
      rw [ih h']

theorem Follows.exists_of_le {steps : Nat} (h : Follows look steps nt) {k : Nat}
    (hk : k ≤ steps) : ∃ m, Follows look k m := by
  induction h with
  | @plain nt e he hplain =>
    obtain rfl : k = 0 := Nat.le_zero.1 hk
    exact ⟨nt, .plain he hplain⟩
  | @unary steps nt e child he hchild h ih =>
    rcases Nat.lt_or_ge steps k with hlt | hge
    · obtain rfl : k = steps + 1 := Nat.le_antisymm hk hlt
      exact ⟨nt, .unary he hchild h⟩
    · exact ih hge

/-- The non-terminals of a chain are distinct, so there are fewer pointers than
non-terminals. -/
theorem Follows.lt {size : Nat} (hsize : ∀ nt e, look nt = some e → nt.toNat < size)
    {steps : Nat} (h : Follows look steps nt) : steps < size := by
  have hchain : ∀ k, ∃ m, k ≤ steps → Follows look k m := by
    intro k
    by_cases hk : k ≤ steps
    · obtain ⟨m, hm⟩ := h.exists_of_le hk
      exact ⟨m, fun _ => hm⟩
    · exact ⟨0, fun hk' => absurd hk' hk⟩
  choose m hm using hchain
  have hmaps : ∀ k ∈ Finset.range (steps + 1), (m k).toNat ∈ Finset.range size := by
    intro k hk
    obtain ⟨e, he⟩ := (hm k (Nat.le_of_lt_succ (Finset.mem_range.1 hk))).exists_entry
    exact Finset.mem_range.2 (hsize _ e he)
  have hinjective : Set.InjOn (fun k => (m k).toNat) (Finset.range (steps + 1)) := by
    intro j hj k hk hjk
    have hj' := hm j (Nat.le_of_lt_succ (Finset.mem_range.1 hj))
    have hk' := hm k (Nat.le_of_lt_succ (Finset.mem_range.1 hk))
    rw [UInt16.toNat_inj.1 hjk] at hj'
    exact hj'.unique hk'
  have hcard := Finset.card_le_card_of_injOn _ hmaps hinjective
  rw [Finset.card_range, Finset.card_range] at hcard
  exact hcard

/-! ## Circles -/

open Relation

/-- The entry of a non-terminal is unary, and this is its child. -/
def Points (look : UInt16 → Option ChartEntry) (nt child : UInt16) : Prop :=
  ∃ e, look nt = some e ∧ e.children = .unary child

theorem Follows.of_points {steps : Nat} (h : Follows look steps nt) {child : UInt16}
    (hpoints : Points look nt child) :
    ∃ rest, steps = rest + 1 ∧ Follows look rest child := by
  obtain ⟨e, he, hchild⟩ := hpoints
  cases h with
  | plain he' hplain =>
    rw [he] at he'
    cases he'
    exact absurd hchild (hplain child)
  | @unary rest _ e' child' he' hchild' h =>
    rw [he] at he'
    cases he'
    rw [hchild] at hchild'
    cases hchild'
    exact ⟨rest, rfl, h⟩

/-- Along pointers there are ever fewer of them to follow. -/
theorem Follows.of_transGen {steps : Nat} (h : Follows look steps nt) {m : UInt16}
    (hchain : TransGen (Points look) nt m) : ∃ rest < steps, Follows look rest m := by
  induction hchain with
  | single hpoints =>
    obtain ⟨rest, rfl, hrest⟩ := h.of_points hpoints
    exact ⟨rest, Nat.lt_succ_self rest, hrest⟩
  | tail _ hpoints ih =>
    obtain ⟨more, hlt, hmore⟩ := ih
    obtain ⟨rest, rfl, hrest⟩ := hmore.of_points hpoints
    exact ⟨rest, Nat.lt_of_succ_lt hlt, hrest⟩

/-- A grounded entry is in no circle. -/
theorem Grounded.acyclic (h : Grounded look nt) : ¬TransGen (Points look) nt nt := by
  obtain ⟨steps, h⟩ := h
  intro hcircle
  obtain ⟨rest, hlt, hrest⟩ := h.of_transGen hcircle
  exact absurd (hrest.unique h) (Nat.ne_of_lt hlt)

/-- Pointers from a first non-terminal lead past one non-terminal to another. -/
def Beyond (look : UInt16 → Option ChartEntry) (first m n : UInt16) : Prop :=
  ReflTransGen (Points look) first n ∧ TransGen (Points look) n m

theorem wellFounded_beyond
    (hacyclic : ∀ m, ReflTransGen (Points look) nt m → ¬TransGen (Points look) m m) :
    WellFounded (Beyond look nt) := by
  have : Finite UInt16 := Finite.of_injective UInt16.toFin fun _ _ => UInt16.toFin_inj.1
  have : IsTrans UInt16 (Beyond look nt) := ⟨fun _ _ _ hab hbc => ⟨hbc.1, hbc.2.trans hab.2⟩⟩
  have : Std.Irrefl (Beyond look nt) := ⟨fun m hm => hacyclic m hm.1 hm.2⟩
  exact Finite.wellFounded_of_trans_of_irrefl _

/-- Where pointers lead to entries, an entry is grounded unless they lead into a circle. -/
theorem grounded_of_acyclic
    (hclosed : ∀ m child, Points look m child → ∃ d, look child = some d)
    (hacyclic : ∀ m, ReflTransGen (Points look) nt m → ¬TransGen (Points look) m m)
    {m : UInt16} (hreach : ReflTransGen (Points look) nt m) {d : ChartEntry}
    (hd : look m = some d) : Grounded look m := by
  induction m using (wellFounded_beyond hacyclic).induction generalizing d with
  | h m ih =>
    by_cases hunary : ∃ child, d.children = .unary child
    · obtain ⟨child, hchild⟩ := hunary
      have hpoints : Points look m child := ⟨d, hd, hchild⟩
      obtain ⟨c, hc⟩ := hclosed m child hpoints
      exact .unary hd hchild (ih child ⟨hreach, .single hpoints⟩ (hreach.tail hpoints) hc)
    · exact .plain hd fun child hchild => hunary ⟨child, hchild⟩

end ChartParsing

import ChartParsing.Proofs.Derivation.Pointers
import ChartParsing.Proofs.Grammar.Views
import Mathlib.Order.WellFounded

/-!
# Unfolding pointers

Whatever made a chart, reading a tree off it ends, as long as its binary entries are split inside
their spans: the parts are shorter, and in between no more unary pointers are followed than there
are non-terminals. That bound takes nothing away. A chain of unary pointers that comes to an end
meets no non-terminal twice, so it has fewer pointers than the bound allows; and the tree that is
read off is what the pointers unfold to, if that is finite and leads to nothing that is missing.
-/

namespace ChartParsing

open Relation

/-- What is found in a cell is there, even if the cell is not in order. -/
theorem Cell.mem_of_get? {c : Cell} {nt : UInt16} {e : ChartEntry} (h : c.get? nt = some e) :
    e ∈ c.toList ∧ e.nt = nt := by
  obtain ⟨i, hi, he⟩ := Option.bind_eq_some_iff.1 h
  unfold indexOf? SortedSearch.find? at hi
  dsimp only at hi
  split_ifs at hi with hfound
  obtain rfl := Option.some.inj hi
  have hnt := hfound.2
  rw [he] at hnt
  rw [← getElem?_toList] at he
  exact ⟨List.mem_of_getElem? he, Option.some.inj hnt⟩

namespace Chart

/-- The entries of a chart are non-terminals of the grammar, and the binary ones are split
inside their spans. -/
structure Contained (g : Grammar) (chart : Chart) : Prop where
  lt : ∀ s, s.within chart.size = true → ∀ e ∈ (chart.cell s).toList, e.nt.toNat < g.size
  split : ∀ s, s.within chart.size = true → ∀ e ∈ (chart.cell s).toList, ∀ key,
    e.children = .binary key → s.start < e.midpoint ∧ e.midpoint < s.stop

/-- The pointers from a non-terminal over a span unfold to a tree. -/
inductive Unfolds (g : Grammar) (chart : Chart) : Span → UInt16 → Tree UInt16 Nat → Prop
  | lexical {s nt e word} (he : (chart.cell s).get? nt = some e)
      (hword : e.children = .lexical word) :
      Unfolds g chart s nt (.branch ⟨nt, s.start.toNat, s.stop.toNat⟩
        [.leaf ⟨s.start.toNat, s.start.toNat, s.stop.toNat⟩])
  | unary {s nt e child t} (he : (chart.cell s).get? nt = some e)
      (hchild : e.children = .unary child) (h : Unfolds g chart s child t) :
      Unfolds g chart s nt (.branch ⟨nt, s.start.toNat, s.stop.toNat⟩ [t])
  | binary {s nt e key l r t u} (he : (chart.cell s).get? nt = some e)
      (hkey : e.children = .binary key) (hunpack : g.packing.unpack key = some (l, r))
      (hl : Unfolds g chart ⟨s.start, e.midpoint⟩ l t)
      (hr : Unfolds g chart ⟨e.midpoint, s.stop⟩ r u) :
      Unfolds g chart s nt (.branch ⟨nt, s.start.toNat, s.stop.toNat⟩ [t, u])

/-- The calls that reading off a tree makes: from a non-terminal over a span, with so many unary
pointers left to follow, to the next. -/
inductive Calls (g : Grammar) (chart : Chart) :
    Span × UInt16 × Nat → Span × UInt16 × Nat → Prop
  | unary {s nt e child unaries} (he : (chart.cell s).get? nt = some e)
      (hchild : e.children = .unary child) :
      Calls g chart (s, nt, unaries + 1) (s, child, unaries)
  | left {s nt e key l r unaries} (he : (chart.cell s).get? nt = some e)
      (hkey : e.children = .binary key) (hunpack : g.packing.unpack key = some (l, r)) :
      Calls g chart (s, nt, unaries) (⟨s.start, e.midpoint⟩, l, g.size)
  | right {s nt e key l r unaries} (he : (chart.cell s).get? nt = some e)
      (hkey : e.children = .binary key) (hunpack : g.packing.unpack key = some (l, r)) :
      Calls g chart (s, nt, unaries) (⟨e.midpoint, s.stop⟩, r, g.size)

variable {g : Grammar} {chart : Chart} {s : Span} {nt : UInt16} {e : ChartEntry}
  {t : Tree UInt16 Nat}

namespace Contained

/-- The parts of a binary entry are shorter spans of the sentence. -/
theorem parts (h : chart.Contained g) (hs : s.within chart.size = true)
    (he : (chart.cell s).get? nt = some e) {key : UInt32} (hkey : e.children = .binary key) :
    (s.start < e.midpoint ∧ e.midpoint < s.stop) ∧
      (Span.within chart.size ⟨s.start, e.midpoint⟩ = true ∧
        Span.length ⟨s.start, e.midpoint⟩ < s.length) ∧
      Span.within chart.size ⟨e.midpoint, s.stop⟩ = true ∧
        Span.length ⟨e.midpoint, s.stop⟩ < s.length := by
  have hsplit := h.split s hs e (Cell.mem_of_get? he).1 key hkey
  have hmid : e.midpoint ∈ s.midpoints := by
    rw [Span.mem_midpoints hs, ← UInt16.lt_iff_toNat_lt, ← UInt16.lt_iff_toNat_lt]
    exact hsplit
  obtain ⟨⟨hs₁, hinside₁⟩, hs₂, hinside₂⟩ := Span.inside_of_mem_midpoints hs hmid
  exact ⟨hsplit, ⟨hs₁, hinside₁.length_lt hs⟩, hs₂, hinside₂.length_lt hs⟩

/-- A chain of unary pointers that ends has fewer of them than there are non-terminals. -/
theorem follows_lt (h : chart.Contained g) (hs : s.within chart.size = true) {steps : Nat}
    (hsteps : Follows (chart.cell s).get? steps nt) : steps < g.size := by
  refine hsteps.lt fun m d hd => ?_
  obtain ⟨hmem, rfl⟩ := Cell.mem_of_get? hd
  exact h.lt s hs d hmem

/-- Reading off a tree ends: spans get shorter, or else fewer unary pointers are left. -/
theorem acc_calls (h : chart.Contained g) (hs : s.within chart.size = true) (nt : UInt16)
    (unaries : Nat) : Acc (fun next call => Calls g chart call next) (s, nt, unaries) := by
  generalize hn : s.length = n
  induction n using Nat.strongRecOn generalizing s nt unaries with
  | ind n ih =>
    induction unaries using Nat.strongRecOn generalizing nt with
    | ind unaries ihunaries =>
      constructor
      rintro ⟨next, m, k⟩ hcall
      cases hcall with
      | unary he hchild => exact ihunaries k (Nat.lt_succ_self k) m
      | left he hkey hunpack =>
        obtain ⟨-, ⟨hs₁, hlt⟩, -⟩ := h.parts hs he hkey
        exact ih _ (hn ▸ hlt) hs₁ m g.size rfl
      | right he hkey hunpack =>
        obtain ⟨-, -, hs₂, hlt⟩ := h.parts hs he hkey
        exact ih _ (hn ▸ hlt) hs₂ m g.size rfl

end Contained

namespace Unfolds

theorem exists_entry (h : Unfolds g chart s nt t) : ∃ e, (chart.cell s).get? nt = some e ∧
    ∀ key, e.children = .binary key → ∃ l r, g.packing.unpack key = some (l, r) := by
  cases h with
  | lexical he hword =>
    refine ⟨_, he, fun key hkey => ?_⟩
    rw [hword] at hkey
    cases hkey
  | unary he hchild =>
    refine ⟨_, he, fun key hkey => ?_⟩
    rw [hchild] at hkey
    cases hkey
  | binary he hkey hunpack =>
    refine ⟨_, he, fun key hkey' => ?_⟩
    rw [hkey] at hkey'
    cases hkey'
    exact ⟨_, _, hunpack⟩

/-- What a pointer leads to unfolds to a part of the tree. -/
theorem of_leads (h : Unfolds g chart s nt t) {next : Span × UInt16}
    (hleads : Leads g chart (s, nt) next) :
    ∃ u, Unfolds g chart next.1 next.2 u ∧ sizeOf u < sizeOf t := by
  cases h with
  | lexical he hword =>
    cases hleads with
    | unary he' hchild' =>
      cases he.symm.trans he'
      cases hword.symm.trans hchild'
    | left he' hkey' | right he' hkey' =>
      cases he.symm.trans he'
      cases hword.symm.trans hkey'
  | unary he hchild h =>
    cases hleads with
    | unary he' hchild' =>
      cases he.symm.trans he'
      cases hchild.symm.trans hchild'
      exact ⟨_, h, by simp; omega⟩
    | left he' hkey' | right he' hkey' =>
      cases he.symm.trans he'
      cases hchild.symm.trans hkey'
  | binary he hkey hunpack hl hr =>
    cases hleads with
    | unary he' hchild' =>
      cases he.symm.trans he'
      cases hkey.symm.trans hchild'
    | left he' hkey' hunpack' =>
      cases he.symm.trans he'
      cases hkey.symm.trans hkey'
      cases hunpack.symm.trans hunpack'
      exact ⟨_, hl, by simp; omega⟩
    | right he' hkey' hunpack' =>
      cases he.symm.trans he'
      cases hkey.symm.trans hkey'
      cases hunpack.symm.trans hunpack'
      exact ⟨_, hr, by simp; omega⟩

/-- Where pointers unfold to a tree, unary ones come to an end. -/
theorem grounded (h : Unfolds g chart s nt t) : Grounded (chart.cell s).get? nt := by
  induction h with
  | lexical he hword =>
    refine .plain he fun child hchild => ?_
    rw [hword] at hchild
    cases hchild
  | unary he hchild h ih => exact .unary he hchild ih
  | binary he hkey hunpack hl hr =>
    refine .plain he fun child hchild => ?_
    rw [hkey] at hchild
    cases hchild

/-- All that pointers lead to from where they unfold to a tree unfolds too. -/
theorem of_reach (h : Unfolds g chart s nt t) {place : Span × UInt16}
    (hreach : ReflTransGen (Leads g chart) (s, nt) place) :
    ∃ u, Unfolds g chart place.1 place.2 u := by
  induction hreach with
  | refl => exact ⟨t, h⟩
  | tail _ hleads ih =>
    obtain ⟨u, hu⟩ := ih
    obtain ⟨v, hv, -⟩ := hu.of_leads hleads
    exact ⟨v, hv⟩

/-- Where pointers unfold to a tree, no path along them goes on for ever. -/
theorem acc (h : Unfolds g chart s nt t) :
    Acc (fun next place => Leads g chart place next) (s, nt) := by
  generalize hn : sizeOf t = n
  induction n using Nat.strongRecOn generalizing s nt t with
  | ind n ih =>
    constructor
    rintro ⟨u, m⟩ hleads
    obtain ⟨v, hv, hlt⟩ := h.of_leads hleads
    exact ih _ (hn ▸ hlt) hv rfl

end Unfolds

/-! ## Reading off what unfolds -/

/-- A tree that pointers unfold to is read off, if the bound lets the unary pointers of the
first span be followed. -/
theorem Unfolds.treeWithin_eq (hchart : chart.Contained g) (hs : s.within chart.size = true)
    (h : Unfolds g chart s nt t) {steps unaries : Nat}
    (hsteps : Follows (chart.cell s).get? steps nt) (hle : steps ≤ unaries) (overruns : Nat) :
    chart.treeWithin g overruns s nt unaries = .ok t := by
  induction h generalizing steps unaries with
  | lexical he hword => exact treeWithin_lexical hs he hword overruns unaries
  | unary he hchild h ih =>
    obtain ⟨rest, rfl, hrest⟩ := hsteps.of_points ⟨_, he, hchild⟩
    obtain ⟨unaries, rfl⟩ := Nat.exists_eq_add_of_le' (Nat.le_trans (Nat.le_add_left 1 rest) hle)
    exact treeWithin_unary hs he hchild (ih hs hrest (Nat.le_of_succ_le_succ hle))
  | binary he hkey hunpack hl hr ihl ihr =>
    obtain ⟨hsplit, ⟨hs₁, -⟩, hs₂, -⟩ := hchart.parts hs he hkey
    obtain ⟨steps₁, hsteps₁⟩ := hl.grounded
    obtain ⟨steps₂, hsteps₂⟩ := hr.grounded
    exact treeWithin_binary hs he hkey hunpack hsplit unaries
      (ihl hs₁ hsteps₁ (Nat.le_of_lt (hchart.follows_lt hs₁ hsteps₁)))
      (ihr hs₂ hsteps₂ (Nat.le_of_lt (hchart.follows_lt hs₂ hsteps₂)))

/-- Whatever the bounds, either a tree is read off that the pointers unfold to, or there is no
parse. -/
theorem Contained.treeWithin_cases (hchart : chart.Contained g) (hs : s.within chart.size = true)
    (nt : UInt16) (overruns unaries : Nat) :
    chart.treeWithin g overruns s nt unaries = .error .noParse ∨
      ∃ t, chart.treeWithin g overruns s nt unaries = .ok t ∧ Unfolds g chart s nt t := by
  generalize hn : s.length = n
  induction n using Nat.strongRecOn generalizing s nt unaries with
  | ind n ih =>
    induction unaries using Nat.strongRecOn generalizing nt with
    | ind unaries ihunaries =>
      cases he : (chart.cell s).get? nt with
      | none => exact Or.inl (treeWithin_none hs he overruns unaries)
      | some e =>
        cases hc : e.children with
        | lexical word =>
          exact Or.inr ⟨_, treeWithin_lexical hs he hc overruns unaries, .lexical he hc⟩
        | unary child =>
          cases unaries with
          | zero => exact Or.inl (treeWithin_unary_zero hs he hc overruns)
          | succ unaries =>
            rw [treeWithin_unary_succ hs he hc]
            rcases ihunaries unaries (Nat.lt_succ_self unaries) child with ht | ⟨t, ht, h⟩
            · rw [ht]
              exact Or.inl rfl
            · rw [ht]
              exact Or.inr ⟨_, rfl, .unary he hc h⟩
        | binary key =>
          cases hunpack : g.packing.unpack key with
          | none => exact Or.inl (treeWithin_unpack_none hs he hc hunpack overruns unaries)
          | some pair =>
            obtain ⟨hsplit, ⟨hs₁, hlt₁⟩, hs₂, hlt₂⟩ := hchart.parts hs he hc
            rw [treeWithin_split hs he hc hunpack hsplit]
            rcases ih _ (hn ▸ hlt₁) hs₁ pair.1 g.size rfl with ht | ⟨t, ht, hl⟩
            · rw [ht]
              exact Or.inl rfl
            · rcases ih _ (hn ▸ hlt₂) hs₂ pair.2 g.size rfl with hu | ⟨u, hu, hr⟩
              · rw [ht, hu]
                exact Or.inl rfl
              · rw [ht, hu]
                exact Or.inr ⟨_, rfl, .binary he hc hunpack hl hr⟩

/-! ## What unfolds -/

/-- All that pointers lead to has an entry, and the key of a binary one stands for a pair. -/
def Complete (g : Grammar) (chart : Chart) (place : Span × UInt16) : Prop :=
  ∀ s nt, ReflTransGen (Leads g chart) place (s, nt) → ∃ e, (chart.cell s).get? nt = some e ∧
    ∀ key, e.children = .binary key → ∃ l r, g.packing.unpack key = some (l, r)

/-- Some path along pointers goes on for ever. -/
def Endless (g : Grammar) (chart : Chart) (place : Span × UInt16) : Prop :=
  ∃ path : Nat → Span × UInt16, path 0 = place ∧ ∀ i, Leads g chart (path i) (path (i + 1))

theorem Complete.of_leads {place next : Span × UInt16} (h : Complete g chart place)
    (hleads : Leads g chart place next) : Complete g chart next :=
  fun s nt hreach => h s nt (.head hleads hreach)

theorem exists_unfolds_of_acc {place : Span × UInt16}
    (hacc : Acc (fun next place => Leads g chart place next) place)
    (h : Complete g chart place) : ∃ t, Unfolds g chart place.1 place.2 t := by
  induction hacc with
  | intro place _ ih =>
    obtain ⟨s, nt⟩ := place
    obtain ⟨e, he, hkeys⟩ := h s nt .refl
    have hpart {next : Span × UInt16} (hleads : Leads g chart (s, nt) next) :
        ∃ u, Unfolds g chart next.1 next.2 u := ih next hleads (h.of_leads hleads)
    cases hc : e.children with
    | lexical word => exact ⟨_, .lexical he hc⟩
    | unary child =>
      obtain ⟨t, ht⟩ := hpart (.unary he hc)
      exact ⟨_, .unary he hc ht⟩
    | binary key =>
      obtain ⟨l, r, hunpack⟩ := hkeys key hc
      obtain ⟨t, ht⟩ := hpart (.left he hc hunpack)
      obtain ⟨u, hu⟩ := hpart (.right he hc hunpack)
      exact ⟨_, .binary he hc hunpack ht hu⟩

/-- Pointers unfold to a tree just if nothing is missing and no path goes on for ever. -/
theorem exists_unfolds_iff : (∃ t, Unfolds g chart s nt t) ↔
    Complete g chart (s, nt) ∧ ¬Endless g chart (s, nt) := by
  constructor
  · rintro ⟨t, h⟩
    refine ⟨fun u m hreach => ?_, ?_⟩
    · obtain ⟨v, hv⟩ := h.of_reach hreach
      exact hv.exists_entry
    · rintro ⟨path, hzero, hpath⟩
      exact not_acc_iff_exists_descending_chain.2 ⟨path, hzero, hpath⟩ h.acc
  · rintro ⟨hcomplete, hends⟩
    refine exists_unfolds_of_acc ?_ hcomplete
    by_contra hacc
    exact hends (not_acc_iff_exists_descending_chain.1 hacc)

/-- Reading a tree off a contained chart ends, with the tree that the pointers unfold to or
without one; a higher bound on unary pointers, or on splits that overrun, gives the same. No
chain of unary pointers that ends is too long for the bound, and where pointers lead into a
circle there is no parse. -/
theorem tree_unfolds (hchart : chart.Contained g) (hs : s.within chart.size = true)
    (nt : UInt16) :
    Acc (fun next call => Calls g chart call next) (s, nt, g.size) ∧
      (∀ t, chart.tree g s nt = .ok t ↔ Unfolds g chart s nt t) ∧
      ((∃ t, Unfolds g chart s nt t) ↔
        Complete g chart (s, nt) ∧ ¬Endless g chart (s, nt)) ∧
      ((∀ t, ¬Unfolds g chart s nt t) → chart.tree g s nt = .error .noParse) ∧
      (∀ overruns unaries, g.size ≤ unaries →
        chart.treeWithin g overruns s nt unaries = chart.tree g s nt) ∧
      (∀ steps, Follows (chart.cell s).get? steps nt → steps < g.size) ∧
      ∀ u m, ReflTransGen (Leads g chart) (s, nt) (u, m) →
        TransGen (Points (chart.cell u).get?) m m → chart.tree g s nt = .error .noParse := by
  have hread {overruns unaries : Nat} (hle : g.size ≤ unaries) {t : Tree UInt16 Nat}
      (h : Unfolds g chart s nt t) : chart.treeWithin g overruns s nt unaries = .ok t := by
    obtain ⟨steps, hsteps⟩ := h.grounded
    have hlt := hchart.follows_lt hs hsteps
    exact h.treeWithin_eq hchart hs hsteps (by omega) overruns
  have hfail {overruns unaries : Nat} (h : ∀ t, ¬Unfolds g chart s nt t) :
      chart.treeWithin g overruns s nt unaries = .error .noParse := by
    rcases hchart.treeWithin_cases hs nt overruns unaries with hnone | ⟨t, -, ht⟩
    · exact hnone
    · exact absurd ht (h t)
  refine ⟨hchart.acc_calls hs nt g.size, fun t => ⟨fun htree => ?_, hread (Nat.le_refl _)⟩,
    exists_unfolds_iff, hfail, fun overruns unaries hle => ?_,
    fun steps => hchart.follows_lt hs, fun u m hreach hcircle => hfail fun t h => ?_⟩
  · rcases hchart.treeWithin_cases hs nt (spanCount chart.size * g.size) g.size with
      hnone | ⟨u, hu, h⟩
    · cases hnone.symm.trans htree
    · cases hu.symm.trans htree
      exact h
  · by_cases hex : ∃ t, Unfolds g chart s nt t
    · obtain ⟨t, h⟩ := hex
      exact (hread hle h).trans (hread (Nat.le_refl _) h).symm
    · have hnone : ∀ t, ¬Unfolds g chart s nt t := fun t h => hex ⟨t, h⟩
      exact (hfail hnone).trans (hfail hnone).symm
  · obtain ⟨v, hv⟩ := h.of_reach hreach
    exact hv.grounded.acyclic hcircle

/-- Two tags of the sample grammar, and the binary rule over both, whose pair has the key. -/
def twoTags (key : UInt32) : Chart :=
  let tag : Cell := ⟨#[⟨0, 0, .lexical 0, 0⟩]⟩
  ⟨2, #[tag, ⟨#[⟨1, 0, .binary key, 1⟩]⟩, tag]⟩

theorem toList_tag (key : UInt32) (h : s = ⟨0, 1⟩ ∨ s = ⟨1, 2⟩) :
    ((twoTags key).cell s).toList = [⟨0, 0, .lexical 0, 0⟩] := by
  rcases h with rfl | rfl <;> rfl

theorem toList_both (key : UInt32) :
    ((twoTags key).cell ⟨0, 2⟩).toList = [⟨1, 0, .binary key, 1⟩] := rfl

theorem eq_of_within_two (h : s.within 2 = true) :
    (s = ⟨0, 1⟩ ∨ s = ⟨1, 2⟩) ∨ s = ⟨0, 2⟩ := by
  rw [Span.within_iff] at h
  have hcases : (s.start.toNat = 0 ∧ s.stop.toNat = 1) ∨ (s.start.toNat = 1 ∧ s.stop.toNat = 2) ∨
      (s.start.toNat = 0 ∧ s.stop.toNat = 2) := by omega
  rcases hcases with h | h | h
  · exact Or.inl (Or.inl (Span.ext_toNat h.1 h.2))
  · exact Or.inl (Or.inr (Span.ext_toNat h.1 h.2))
  · exact Or.inr (Span.ext_toNat h.1 h.2)

theorem contained_twoTags (hsize : 2 ≤ g.size) (key : UInt32) : (twoTags key).Contained g := by
  constructor
  · intro s hs e he
    rcases eq_of_within_two hs with htag | rfl
    · rw [toList_tag key htag, List.mem_singleton] at he
      subst he
      exact Nat.lt_of_lt_of_le (by decide : 0 < 2) hsize
    · rw [toList_both, List.mem_singleton] at he
      subst he
      exact Nat.lt_of_lt_of_le (by decide : 1 < 2) hsize
  · intro s hs e he k hk
    rcases eq_of_within_two hs with htag | rfl
    · rw [toList_tag key htag, List.mem_singleton] at he
      subst he
      cases hk
    · rw [toList_both, List.mem_singleton] at he
      subst he
      exact ⟨(by decide : (0 : UInt16) < 1), (by decide : (1 : UInt16) < 2)⟩

/-- The chart of two tags unfolds to the tree of the rule that joins them. -/
theorem tree_unfolds_twoTags : ∃ g key, Grammar.compile (.sample true) .shift = .ok g ∧
    g.packing.unpack key = some (0, 0) ∧ (twoTags key).tree g ⟨0, 2⟩ 1 =
      .ok (.branch ⟨1, 0, 2⟩ [.branch ⟨0, 0, 1⟩ [.leaf ⟨0, 0, 1⟩],
        .branch ⟨0, 1, 2⟩ [.leaf ⟨1, 1, 2⟩]]) := by
  obtain ⟨g, hg, -⟩ := Grammar.exists_sample true
  obtain ⟨hstart, -, ⟨key, hpack, -⟩, -⟩ := Grammar.rules_sample hg
  have hcoherent := Grammar.coherent_of_compile hg
  have hsize : 2 ≤ g.size := by
    have hlt := hcoherent.start_lt
    rw [hstart] at hlt
    exact hlt
  have hunpack := (hcoherent.unpack_of_pack hpack).1
  have hget {s : Span} {e : ChartEntry} (he : ((twoTags key).cell s).toList = [e]) :
      ((twoTags key).cell s).get? e.nt = some e := by
    have hordered : ((twoTags key).cell s).Ordered := by
      unfold Cell.Ordered
      rw [he]
      exact List.pairwise_singleton _ _
    exact hordered.get?_eq_some.2 ⟨he ▸ List.mem_cons_self, rfl⟩
  have hwithin : (⟨0, 2⟩ : Span).within (twoTags key).size = true := by
    change Span.within 2 ⟨0, 2⟩ = true
    decide
  obtain ⟨-, htree, -⟩ := tree_unfolds (contained_twoTags hsize key) hwithin 1
  exact ⟨g, key, hg, hunpack, (htree _).2 (.binary (hget (toList_both key)) rfl hunpack
    (.lexical (hget (toList_tag key (Or.inl rfl))) rfl)
    (.lexical (hget (toList_tag key (Or.inr rfl))) rfl))⟩

end Chart
end ChartParsing

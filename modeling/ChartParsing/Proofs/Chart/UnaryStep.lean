import ChartParsing.Proofs.Chart.Offers
import Std.Data.HashSet.Lemmas

/-!
# The unary step

The edges of a unary step are all rules applied to the entries that stand in a table
before it. The best edge to each parent that it improves is a candidate, and a candidate
is entered unless another one is derived from its parent. So the children of unary entries
stay as they were, and no non-terminal is lost.
-/

namespace ChartParsing

namespace UnaryStep

/-- The edges to the parents of one child. -/
def edgesOf (g : Grammar) (s : Scratch) (stop child : UInt16) : List ChartEntry :=
  (g.unaryByChild.column child.toUInt32).map fun (parent, rule) =>
    ⟨parent, rule + s.insideOf child, .unary child, stop⟩

/-- The edges from all entries of a table. -/
def edges (g : Grammar) (s : Scratch) (stop : UInt16) : List ChartEntry :=
  s.populated.toList.flatMap (edgesOf g s stop)

/-- The edges that improve on what the table has. -/
def improving (g : Grammar) (s : Scratch) (stop : UInt16) : List ChartEntry :=
  (edges g s stop).filter fun e => s.insideOf e.nt < e.inside

theorem addChild_eq (g : Grammar) (s : Scratch) (stop : UInt16) (candidates : Scratch)
    (child : UInt16) : addChild g s stop candidates child =
      Scratch.updateAll ((edgesOf g s stop child).filter fun e => s.insideOf e.nt < e.inside)
        candidates := by
  unfold addChild edgesOf Scratch.updateAll
  dsimp only
  generalize g.unaryByChild.column child.toUInt32 = column
  induction column generalizing candidates with
  | nil => rfl
  | cons edge column ih =>
    rw [List.foldl_cons, ih, List.map_cons, List.filter_cons]
    split_ifs with habove hdec hdec
    · rfl
    · exact absurd (decide_eq_true habove) hdec
    · exact absurd (of_decide_eq_true hdec) habove
    · rfl

theorem mem_edges {g : Grammar} (hg : g.Coherent) {s : Scratch} {stop : UInt16}
    {e : ChartEntry} : e ∈ edges g s stop ↔
      ∃ child ∈ s.populated.toList, ∃ rule, g.HasUnary e.nt child rule ∧
        e.inside = rule + s.insideOf child ∧ e.children = .unary child ∧ e.midpoint = stop := by
  unfold edges edgesOf
  rw [List.mem_flatMap]
  constructor
  · rintro ⟨child, hchild, hmem⟩
    obtain ⟨⟨parent, rule⟩, hedge, rfl⟩ := List.mem_map.1 hmem
    exact ⟨child, hchild, rule, hg.unary.1 hedge, rfl, rfl, rfl⟩
  · rintro ⟨child, hchild, rule, hrule, hinside, hchildren, hmid⟩
    refine ⟨child, hchild, List.mem_map.2 ⟨(e.nt, rule), hg.unary.2 hrule, ?_⟩⟩
    obtain ⟨nt, inside, children, midpoint⟩ := e
    cases hinside
    cases hchildren
    cases hmid
    rfl

theorem improving_lt {g : Grammar} (hg : g.Coherent) (s : Scratch) (stop : UInt16) :
    ∀ e ∈ improving g s stop, e.nt.toNat < g.size := by
  intro e he
  obtain ⟨child, -, rule, hrule, -⟩ := (mem_edges hg).1 (List.mem_filter.1 he).1
  exact hg.unary_lt hrule

/-- The best edge to each parent that it improves. -/
def candidates (g : Grammar) (s : Scratch) (stop : UInt16) (old : Scratch) : Scratch :=
  Scratch.updateAll (improving g s stop) old.reset

theorem foldl_addChild (g : Grammar) (s : Scratch) (stop : UInt16) (old : Scratch) :
    s.populated.foldl (addChild g s stop) old.reset = candidates g s stop old := by
  unfold candidates improving edges
  rw [← Array.foldl_toList]
  generalize old.reset = start
  generalize s.populated.toList = children
  induction children generalizing start with
  | nil => rfl
  | cons child children ih =>
    rw [List.foldl_cons, ih, addChild_eq, List.flatMap_cons, List.filter_append,
      Scratch.updateAll_append]

variable {g : Grammar} {s old : Scratch} {stop : UInt16}

theorem valid_candidates (stop : UInt16) (hg : g.Coherent) (hold : old.Valid g.size) :
    (candidates g s stop old).Valid g.size :=
  hold.reset.1.updateAll (improving_lt hg s stop)

/-- A candidate is an edge that improves on what its parent has. -/
theorem edge_of_candidate (hg : g.Coherent) (hold : old.Valid g.size) {nt : UInt16}
    {e : ChartEntry} (h : (candidates g s stop old).entryOf? nt = some e) :
    e ∈ edges g s stop ∧ s.insideOf nt < e.inside := by
  obtain ⟨hvalid, -, habsent⟩ := hold.reset
  rcases hvalid.entry_of_updateAll (improving_lt hg s stop) h with hnone | ⟨hmem, -⟩
  · rw [Scratch.entryOf?_eq_none.2 (habsent nt)] at hnone
    cases hnone
  · obtain ⟨hedge, habove⟩ := List.mem_filter.1 hmem
    rw [decide_eq_true_iff] at habove
    have hnt := Scratch.nt_of_entryOf? h
    rw [hnt] at habove
    exact ⟨hedge, habove⟩

/-- Every parent that an edge improves has a candidate, no lower than the edge. -/
theorem exists_candidate (hg : g.Coherent) (hold : old.Valid g.size) {e : ChartEntry}
    (he : e ∈ edges g s stop) (habove : s.insideOf e.nt < e.inside) :
    ∃ d, (candidates g s stop old).entryOf? e.nt = some d ∧ e.inside ≤ d.inside := by
  obtain ⟨hvalid, -, habsent⟩ := hold.reset
  have hmem : e ∈ improving g s stop := List.mem_filter.2 ⟨he, decide_eq_true habove⟩
  have hpresent := Score.present_of_lt habove
  have hle := (hvalid.best_updateAll (Scratch.present_of_absent habsent)
    (improving_lt hg s stop)).2.2 e hmem hpresent
  have hne := Score.ne_absent_of_lt (Score.lt_of_lt_of_le hpresent hle)
  exact ⟨_, Scratch.entryOf?_eq_some.2 ⟨hne, rfl⟩, hle⟩

/-- A candidate is derived from the non-terminal. -/
def Blocked (candidates : Scratch) (nt : UInt16) : Prop :=
  ∃ parent e, candidates.entryOf? parent = some e ∧ e.children = .unary nt

theorem childOf_eq_some {candidates : Scratch} {parent child : UInt16} :
    childOf candidates parent = some child ↔
      ∃ e, candidates.entryOf? parent = some e ∧ e.children = .unary child := by
  unfold childOf
  constructor
  · intro h
    split at h
    · rename_i e he
      split at h
      · rename_i child' hchild
        obtain rfl := Option.some.inj h
        exact ⟨e, he, hchild⟩
      · cases h
    · cases h
  · rintro ⟨e, he, hchild⟩
    rw [he]
    dsimp only
    rw [hchild]

theorem contains_blocked {count : Nat} {candidates : Scratch} (h : candidates.Valid count)
    (nt : UInt16) :
    (Std.HashSet.ofList (candidates.populated.toList.filterMap (childOf candidates))).contains nt
      = true ↔ Blocked candidates nt := by
  rw [Std.HashSet.contains_ofList, List.contains_iff_mem, List.mem_filterMap]
  constructor
  · rintro ⟨parent, -, hchild⟩
    obtain ⟨e, he, hchildren⟩ := childOf_eq_some.1 hchild
    exact ⟨parent, e, he, hchildren⟩
  · rintro ⟨parent, e, he, hchildren⟩
    exact ⟨parent, (h.mem_iff parent).2 ⟨e, he⟩, childOf_eq_some.2 ⟨e, he, hchildren⟩⟩

/-- Entering the candidate of one parent. -/
theorem entryOf?_commit {candidates : Scratch} (blocked : Std.HashSet UInt16) {count : Nat}
    (hcandidates : candidates.Valid count) (hs : s.Valid count) (parent : UInt16) :
    (commit candidates blocked s parent).Valid count ∧
      ∀ nt, (commit candidates blocked s parent).entryOf? nt =
        if nt = parent ∧ blocked.contains nt = false then
          (candidates.entryOf? nt).or (s.entryOf? nt) else s.entryOf? nt := by
  unfold commit
  split_ifs with hblocked
  · refine ⟨hs, fun nt => ?_⟩
    rw [if_neg]
    rintro ⟨rfl, hfree⟩
    rw [hblocked] at hfree
    cases hfree
  · cases he : candidates.entryOf? parent with
    | none =>
      refine ⟨hs, fun nt => ?_⟩
      split_ifs with hnt
      · rw [hnt.1, he]
        rfl
      · rfl
    | some e =>
      have hnt := Scratch.nt_of_entryOf? he
      have hlt : e.nt.toNat < count := by
        rw [hnt]
        exact hcandidates.lt ((hcandidates.mem_iff parent).2 ⟨e, he⟩)
      have hne : e.inside ≠ Score.absent := by
        rw [Scratch.inside_of_entryOf? he]
        exact (Scratch.entryOf?_eq_some.1 he).1
      dsimp only
      rw [Scratch.set_eq, if_neg hne]
      refine ⟨hs.write hlt hne, fun nt => ?_⟩
      rw [hs.entryOf?_write hlt hne, hnt]
      by_cases heq : nt = parent
      · subst heq
        rw [if_pos rfl, if_pos ⟨rfl, by simpa using hblocked⟩, he]
        rfl
      · rw [if_neg heq, if_neg fun h => heq h.1]

/-- Entering the candidates of some parents changes the entries of those that are not
blocked, and no others. -/
theorem entryOf?_foldl_commit {candidates : Scratch} (blocked : Std.HashSet UInt16) {count : Nat}
    (hcandidates : candidates.Valid count) (parents : List UInt16) (hs : s.Valid count) :
    (parents.foldl (commit candidates blocked) s).Valid count ∧
      ∀ nt, (parents.foldl (commit candidates blocked) s).entryOf? nt =
        if nt ∈ parents ∧ blocked.contains nt = false then
          (candidates.entryOf? nt).or (s.entryOf? nt) else s.entryOf? nt := by
  induction parents generalizing s with
  | nil => simp [hs]
  | cons parent parents ih =>
    rw [List.foldl_cons]
    obtain ⟨hstep, hcommit⟩ := entryOf?_commit blocked hcandidates hs parent
    obtain ⟨hvalid, hentry⟩ := ih hstep
    refine ⟨hvalid, fun nt => ?_⟩
    rw [hentry, hcommit]
    by_cases hfree : blocked.contains nt = false
    · by_cases heq : nt = parent
      · subst heq
        simp only [hfree, and_true, List.mem_cons, true_or, if_true]
        split_ifs
        · cases candidates.entryOf? nt <;> rfl
        · rfl
      · simp only [hfree, and_true, List.mem_cons, heq, false_or, if_false]
    · simp [hfree]

end UnaryStep

namespace Scratch

variable {g : Grammar} {s old : Scratch} {stop : UInt16}

theorem addUnaries_snd (g : Grammar) (s old : Scratch) (stop : UInt16) :
    (s.addUnaries g stop old).2 = UnaryStep.candidates g s stop old := by
  unfold addUnaries
  rw [UnaryStep.foldl_addChild]

/-- What a unary step leaves: a blocked non-terminal keeps its entry, and any other gets
its candidate if it has one. -/
theorem entryOf?_addUnaries (stop : UInt16) (hg : g.Coherent) (hs : s.Valid g.size)
    (hold : old.Valid g.size) :
    (s.addUnaries g stop old).1.Valid g.size ∧
      (∀ nt, UnaryStep.Blocked (UnaryStep.candidates g s stop old) nt →
        (s.addUnaries g stop old).1.entryOf? nt = s.entryOf? nt) ∧
      ∀ nt, ¬UnaryStep.Blocked (UnaryStep.candidates g s stop old) nt →
        (s.addUnaries g stop old).1.entryOf? nt =
          ((UnaryStep.candidates g s stop old).entryOf? nt).or (s.entryOf? nt) := by
  have hvalid := UnaryStep.valid_candidates (s := s) stop hg hold
  unfold addUnaries
  rw [UnaryStep.foldl_addChild]
  dsimp only
  generalize UnaryStep.candidates g s stop old = candidates at hvalid ⊢
  obtain ⟨hresult, hentry⟩ := UnaryStep.entryOf?_foldl_commit
    (Std.HashSet.ofList (candidates.populated.toList.filterMap (UnaryStep.childOf candidates)))
    hvalid candidates.populated.toList hs
  refine ⟨hresult, fun nt hblocked => ?_, fun nt hfree => ?_⟩
  · rw [hentry, if_neg]
    rintro ⟨-, hfree⟩
    rw [← UnaryStep.contains_blocked hvalid, hfree] at hblocked
    cases hblocked
  · rw [← UnaryStep.contains_blocked hvalid, Bool.not_eq_true] at hfree
    rw [hentry]
    split_ifs with hmem
    · rfl
    · have hnone : candidates.entryOf? nt = none := by
        rw [Option.eq_none_iff_forall_not_mem]
        intro e he
        exact hmem ⟨(hvalid.mem_iff nt).2 ⟨e, he⟩, hfree⟩
      rw [hnone]
      rfl

/-- What stands in a table after a unary step stood there before, or is derived from an
entry that stood there before and still does. -/
theorem entry_of_addUnaries (hg : g.Coherent) (hs : s.Valid g.size) (hold : old.Valid g.size)
    {nt : UInt16} {e : ChartEntry} (h : (s.addUnaries g stop old).1.entryOf? nt = some e) :
    s.entryOf? nt = some e ∨ ∃ child rule d, g.HasUnary nt child rule ∧
      s.entryOf? child = some d ∧ (s.addUnaries g stop old).1.entryOf? child = some d ∧
      Score.absent < e.inside ∧ e.inside = rule + d.inside ∧ e.children = .unary child ∧
      e.midpoint = stop := by
  obtain ⟨-, hblocked, hfree⟩ := entryOf?_addUnaries stop hg hs hold
  by_cases hnt : UnaryStep.Blocked (UnaryStep.candidates g s stop old) nt
  · rw [hblocked nt hnt] at h
    exact Or.inl h
  · rw [hfree nt hnt, Option.or_eq_some_iff] at h
    rcases h with hcandidate | ⟨-, h⟩
    · obtain ⟨hedge, habove⟩ := UnaryStep.edge_of_candidate hg hold hcandidate
      obtain ⟨child, hchild, rule, hrule, hinside, hchildren, hmid⟩ :=
        (UnaryStep.mem_edges hg).1 hedge
      obtain ⟨d, hd⟩ := (hs.mem_iff child).1 hchild
      rw [nt_of_entryOf? hcandidate] at hrule
      rw [← inside_of_entryOf? hd] at hinside
      have hkept := hblocked child ⟨nt, e, hcandidate, hchildren⟩
      exact Or.inr ⟨child, rule, d, hrule, hd, hkept.trans hd, Score.present_of_lt habove,
        hinside, hchildren, hmid⟩
    · exact Or.inl h

/-- A unary step loses no non-terminal, and adds those that an edge improves. -/
theorem isSome_addUnaries (hg : g.Coherent) (hs : s.Valid g.size) (hold : old.Valid g.size)
    {nt : UInt16} : ((s.addUnaries g stop old).1.entryOf? nt).isSome ↔
      (s.entryOf? nt).isSome ∨
        ∃ e ∈ UnaryStep.edges g s stop, e.nt = nt ∧ s.insideOf nt < e.inside := by
  obtain ⟨-, hblocked, hfree⟩ := entryOf?_addUnaries stop hg hs hold
  have hcandidates : ((UnaryStep.candidates g s stop old).entryOf? nt).isSome ↔
      ∃ e ∈ UnaryStep.edges g s stop, e.nt = nt ∧ s.insideOf nt < e.inside := by
    constructor
    · intro h
      obtain ⟨e, he⟩ := Option.isSome_iff_exists.1 h
      obtain ⟨hedge, habove⟩ := UnaryStep.edge_of_candidate hg hold he
      exact ⟨e, hedge, nt_of_entryOf? he, habove⟩
    · rintro ⟨e, hedge, rfl, habove⟩
      obtain ⟨d, hd, -⟩ := UnaryStep.exists_candidate hg hold hedge habove
      exact Option.isSome_iff_exists.2 ⟨d, hd⟩
  by_cases hnt : UnaryStep.Blocked (UnaryStep.candidates g s stop old) nt
  · have hsome : (s.entryOf? nt).isSome := by
      obtain ⟨parent, e, he, hchildren⟩ := hnt
      obtain ⟨hedge, -⟩ := UnaryStep.edge_of_candidate hg hold he
      obtain ⟨child, hchild, rule, -, -, hchildren', -⟩ := (UnaryStep.mem_edges hg).1 hedge
      rw [hchildren] at hchildren'
      cases hchildren'
      exact Option.isSome_iff_exists.2 ((hs.mem_iff nt).1 hchild)
    rw [hblocked nt hnt]
    simp [hsome]
  · rw [hfree nt hnt, Option.isSome_or, Bool.or_eq_true, hcandidates]
    exact or_comm

/-- A unary step lowers no score. -/
theorem le_addUnaries (stop : UInt16) (hg : g.Coherent) (hs : s.Valid g.size)
    (hold : old.Valid g.size) {nt : UInt16} {d : ChartEntry} (hd : s.entryOf? nt = some d)
    (hnumber : d.inside.isNaN = false) :
    ∃ e, (s.addUnaries g stop old).1.entryOf? nt = some e ∧ d.inside ≤ e.inside := by
  obtain ⟨-, hblocked, hfree⟩ := entryOf?_addUnaries stop hg hs hold
  by_cases hnt : UnaryStep.Blocked (UnaryStep.candidates g s stop old) nt
  · exact ⟨d, (hblocked nt hnt).trans hd, Score.le_self hnumber⟩
  · rw [hfree nt hnt]
    cases he : (UnaryStep.candidates g s stop old).entryOf? nt with
    | none => exact ⟨d, hd, Score.le_self hnumber⟩
    | some e =>
      obtain ⟨-, habove⟩ := UnaryStep.edge_of_candidate hg hold he
      rw [← inside_of_entryOf? hd] at habove
      exact ⟨e, rfl, Score.le_of_lt habove⟩

/-- After a unary step no entry is below an edge to it, unless it is blocked. -/
theorem le_addUnaries_of_edge (hg : g.Coherent) (hs : s.Valid g.size) (hold : old.Valid g.size)
    {e : ChartEntry} (he : e ∈ UnaryStep.edges g s stop) (hnumber : e.inside.isNaN = false)
    (hfree : ¬UnaryStep.Blocked (UnaryStep.candidates g s stop old) e.nt) {d : ChartEntry}
    (hd : (s.addUnaries g stop old).1.entryOf? e.nt = some d)
    (hnumber' : (s.insideOf e.nt).isNaN = false) : e.inside ≤ d.inside := by
  rw [(entryOf?_addUnaries stop hg hs hold).2.2 e.nt hfree] at hd
  by_cases habove : s.insideOf e.nt < e.inside
  · obtain ⟨c, hc, hle⟩ := UnaryStep.exists_candidate hg hold he habove
    rw [hc] at hd
    cases hd
    exact hle
  · have hle := Score.le_of_not_lt hnumber' hnumber habove
    rw [Option.or_eq_some_iff] at hd
    rcases hd with hc | ⟨-, hd⟩
    · obtain ⟨-, hlt⟩ := UnaryStep.edge_of_candidate hg hold hc
      exact Score.le_trans hle (Score.le_of_lt hlt)
    · rwa [inside_of_entryOf? hd]

/-- Without unary rules a unary step changes nothing. -/
theorem entryOf?_addUnaries_of_none (hg : g.Coherent) (hs : s.Valid g.size)
    (hold : old.Valid g.size) (hnone : ∀ parent child rule, ¬g.HasUnary parent child rule)
    (nt : UInt16) : (s.addUnaries g stop old).1.entryOf? nt = s.entryOf? nt := by
  obtain ⟨-, hblocked, hfree⟩ := entryOf?_addUnaries stop hg hs hold
  by_cases hnt : UnaryStep.Blocked (UnaryStep.candidates g s stop old) nt
  · exact hblocked nt hnt
  · rw [hfree nt hnt]
    cases he : (UnaryStep.candidates g s stop old).entryOf? nt with
    | none => rfl
    | some e =>
      obtain ⟨hedge, -⟩ := UnaryStep.edge_of_candidate hg hold he
      obtain ⟨child, -, rule, hrule, -⟩ := (UnaryStep.mem_edges hg).1 hedge
      exact absurd hrule (hnone _ _ _)

/-- Tables that agree before a unary step have the same entries after it. -/
theorem Agree.entryOf?_addUnaries {t new : Scratch} (hg : g.Coherent) (h : Agree s t)
    (hs : s.Valid g.size) (ht : t.Valid g.size) (hold : old.Valid g.size)
    (hnew : new.Valid g.size) (nt : UInt16) :
    (s.addUnaries g stop old).1.entryOf? nt = (t.addUnaries g stop new).1.entryOf? nt := by
  have hinside : s.insideOf = t.insideOf := funext h.insideOf
  have himproving : UnaryStep.improving g s stop = UnaryStep.improving g t stop := by
    unfold UnaryStep.improving UnaryStep.edges
    have hedges : UnaryStep.edgesOf g s stop = UnaryStep.edgesOf g t stop := by
      unfold UnaryStep.edgesOf
      rw [hinside]
    rw [h.populated, hinside, hedges]
  have hcandidates : Agree (UnaryStep.candidates g s stop old)
      (UnaryStep.candidates g t stop new) := by
    unfold UnaryStep.candidates
    rw [himproving]
    exact (hold.agree_reset hnew).updateAll hold.reset.1 hnew.reset.1
      (UnaryStep.improving_lt hg t stop)
  have hiff : UnaryStep.Blocked (UnaryStep.candidates g s stop old) nt ↔
      UnaryStep.Blocked (UnaryStep.candidates g t stop new) nt := by
    unfold UnaryStep.Blocked
    simp only [hcandidates.entry]
  obtain ⟨-, hblocked, hfree⟩ := Scratch.entryOf?_addUnaries stop hg hs hold
  obtain ⟨-, hblocked', hfree'⟩ := Scratch.entryOf?_addUnaries stop hg ht hnew
  by_cases hnt : UnaryStep.Blocked (UnaryStep.candidates g s stop old) nt
  · rw [hblocked nt hnt, hblocked' nt (hiff.1 hnt), h.entry]
  · rw [hfree nt hnt, hfree' nt fun hnt' => hnt (hiff.2 hnt'), hcandidates.entry, h.entry]

end Scratch
end ChartParsing

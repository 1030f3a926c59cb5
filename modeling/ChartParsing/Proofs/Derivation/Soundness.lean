import ChartParsing.Proofs.Derivation.Basic
import ChartParsing.Proofs.Derivation.Exhaustive
import ChartParsing.Proofs.Grammar.Making

/-!
# Justified entries

Every entry of an exhaustive chart is justified: what it was derived from is on the chart,
with the score that it was derived with. That holds of unary entries because the entry of
a child is not replaced in the step that uses it. Following the pointers of an entry
therefore ends, in the tree of a derivation that has the score of the entry.
-/

namespace ChartParsing

/-- The entry was derived from another one of its cell. -/
def Children.IsUnary : Children → Prop
  | unary _ => True
  | _ => False

namespace Chart

/-- What an entry of a span was derived from is on the chart, with a rule, and its score is
that of the rule added to theirs. -/
def Justifies (g : Grammar) (words : Array UInt32) (chart : Chart) (s : Span)
    (e : ChartEntry) : Prop :=
  match e.children with
  | .lexical word => s.length = 1 ∧ word = words.getD s.start.toNat 0 ∧ e.midpoint = 0 ∧
      g.HasTag e.nt word e.inside
  | .binary key => s.start < e.midpoint ∧ e.midpoint < s.stop ∧ ∃ left right rule l r,
      g.packing.unpack key = some (left, right) ∧
      (chart.cell ⟨s.start, e.midpoint⟩).get? left = some l ∧
      (chart.cell ⟨e.midpoint, s.stop⟩).get? right = some r ∧
      g.HasBinary e.nt left right rule ∧ e.inside = rule + (l.inside + r.inside)
  | .unary child => e.midpoint = s.stop ∧ ∃ rule d,
      (chart.cell s).get? child = some d ∧ ¬d.children.IsUnary ∧
      g.HasUnary e.nt child rule ∧ e.inside = rule + d.inside

variable {g : Grammar} {words : Array UInt32} {chart : Chart} {isOpen : Span → Prop} {s : Span}
  {nt : UInt16} {e : ChartEntry}

/-- What is derived before the unary step is justified without it. -/
theorem Exhaustive.justifies_derived (hg : g.Coherent) (h : Exhaustive g words isOpen chart)
    (hs : s.within chart.size = true)
    (he : (Scratch.derived g chart words s).entryOf? nt = some e) :
    Justifies g words chart s e ∧ ¬e.children.IsUnary := by
  obtain rfl := Scratch.nt_of_entryOf? he
  unfold Justifies
  by_cases hone : s.length = 1
  · obtain ⟨hmem, -⟩ := Scratch.mem_of_derived hg he
    rw [derivedEntries_word hs hone] at hmem
    obtain ⟨htag, hchildren, hmid⟩ := Scratch.mem_tagEntries.1 hmem
    rw [hchildren]
    exact ⟨⟨hone, rfl, hmid, htag⟩, id⟩
  · obtain ⟨left, right, key, rule, l, r, hchildren, hunpack, hrule, hm, hl, hr, hinside⟩ :=
      h.exists_of_derived hg hs hone he
    rw [Span.mem_midpoints hs, ← UInt16.lt_iff_toNat_lt, ← UInt16.lt_iff_toNat_lt] at hm
    rw [hchildren]
    exact ⟨⟨hm.1, hm.2, left, right, rule, l, r, hunpack, hl, hr, hrule, hinside⟩, id⟩

/-- Every entry of an exhaustive chart is justified. -/
theorem Exhaustive.justifies (hg : g.Coherent) (h : Exhaustive g words isOpen chart)
    (hs : s.within chart.size = true) (he : (chart.cell s).get? nt = some e) :
    Justifies g words chart s e := by
  obtain ⟨hopen, hfull⟩ := (h.get?_iff hs).1 he
  rcases mem_of_full hg hfull with
    hderived | ⟨child, rule, d, hrule, hd, hd', -, hinside, hchildren, hmid⟩
  · exact (h.justifies_derived hg hs hderived).1
  · obtain rfl := Scratch.nt_of_entryOf? hfull
    unfold Justifies
    rw [hchildren]
    exact ⟨hmid, rule, d, (h.get?_iff hs).2 ⟨hopen, hd'⟩, (h.justifies_derived hg hs hd).2,
      hrule, hinside⟩

/-! ## Following pointers -/

theorem treeWithin_lexical {word : UInt32} (hs : s.within chart.size = true)
    (he : (chart.cell s).get? nt = some e) (hc : e.children = .lexical word)
    (overruns unaries : Nat) : treeWithin g chart overruns s nt unaries =
      .ok (.branch ⟨nt, s.start.toNat, s.stop.toNat⟩
        [.leaf ⟨s.start.toNat, s.start.toNat, s.stop.toNat⟩]) := by
  rw [treeWithin, holds, hs, he]
  dsimp only
  rw [hc]
  rfl

theorem treeWithin_none (hs : s.within chart.size = true) (hnone : (chart.cell s).get? nt = none)
    (overruns unaries : Nat) : treeWithin g chart overruns s nt unaries = .error .noParse := by
  rw [treeWithin, holds, hs, hnone]
  rfl

theorem treeWithin_unary_zero {child : UInt16} (hs : s.within chart.size = true)
    (he : (chart.cell s).get? nt = some e) (hchild : e.children = .unary child)
    (overruns : Nat) : treeWithin g chart overruns s nt 0 = .error .noParse := by
  rw [treeWithin, holds, hs, he]
  dsimp only
  rw [hchild]
  rfl

theorem treeWithin_unary_succ {child : UInt16} (hs : s.within chart.size = true)
    (he : (chart.cell s).get? nt = some e) (hchild : e.children = .unary child)
    (overruns unaries : Nat) : treeWithin g chart overruns s nt (unaries + 1) =
      (treeWithin g chart overruns s child unaries).bind fun t =>
        .ok (.branch ⟨nt, s.start.toNat, s.stop.toNat⟩ [t]) := by
  rw [treeWithin, holds, hs, he]
  dsimp only
  rw [hchild]
  rfl

theorem treeWithin_unpack_none {key : UInt32} (hs : s.within chart.size = true)
    (he : (chart.cell s).get? nt = some e) (hkey : e.children = .binary key)
    (hunpack : g.packing.unpack key = none) (overruns unaries : Nat) :
    treeWithin g chart overruns s nt unaries = .error .noParse := by
  rw [treeWithin, holds, hs, he]
  dsimp only
  rw [hkey]
  dsimp only
  rw [hunpack]
  rfl

theorem treeWithin_split {key : UInt32} {l r : UInt16} (hs : s.within chart.size = true)
    (he : (chart.cell s).get? nt = some e) (hkey : e.children = .binary key)
    (hunpack : g.packing.unpack key = some (l, r))
    (hsplit : s.start < e.midpoint ∧ e.midpoint < s.stop) (overruns unaries : Nat) :
    treeWithin g chart overruns s nt unaries =
      (treeWithin g chart overruns ⟨s.start, e.midpoint⟩ l g.size).bind fun t =>
        (treeWithin g chart overruns ⟨e.midpoint, s.stop⟩ r g.size).bind fun u =>
          .ok (.branch ⟨nt, s.start.toNat, s.stop.toNat⟩ [t, u]) := by
  rw [treeWithin, holds, hs, he]
  dsimp only
  rw [hkey]
  dsimp only
  rw [hunpack]
  dsimp only
  rw [dif_pos hsplit]
  rfl

theorem treeWithin_unary {child : UInt16} {t : Tree UInt16 Nat} (hs : s.within chart.size = true)
    (he : (chart.cell s).get? nt = some e) (hc : e.children = .unary child)
    {overruns unaries : Nat} (ht : treeWithin g chart overruns s child unaries = .ok t) :
    treeWithin g chart overruns s nt (unaries + 1) =
      .ok (.branch ⟨nt, s.start.toNat, s.stop.toNat⟩ [t]) := by
  rw [treeWithin_unary_succ hs he hc, ht]
  rfl

theorem treeWithin_binary {key : UInt32} {left right : UInt16} {t u : Tree UInt16 Nat}
    (hs : s.within chart.size = true) (he : (chart.cell s).get? nt = some e)
    (hc : e.children = .binary key) (hunpack : g.packing.unpack key = some (left, right))
    (hm : s.start < e.midpoint ∧ e.midpoint < s.stop) {overruns : Nat} (unaries : Nat)
    (ht : treeWithin g chart overruns ⟨s.start, e.midpoint⟩ left g.size = .ok t)
    (hu : treeWithin g chart overruns ⟨e.midpoint, s.stop⟩ right g.size = .ok u) :
    treeWithin g chart overruns s nt unaries =
      .ok (.branch ⟨nt, s.start.toNat, s.stop.toNat⟩ [t, u]) := by
  rw [treeWithin_split hs he hc hunpack hm, ht, hu]
  rfl

end Chart

/-- A derivation of the root, the span and the score of an entry. Following the pointers of
the entry leads to its tree. -/
structure Derivation.Backs (g : Grammar) (words : Array UInt32) (isOpen : Span → Prop)
    (chart : Chart) (s : Span) (e : ChartEntry) (d : Derivation) : Prop where
  root : d.root = e.nt
  width : d.width = s.length
  licensed : d.Licensed g words s.start.toNat
  unchained : d.Unchained
  isOpen : d.Open isOpen s.start.toNat
  unary : d.IsUnary → e.children.IsUnary
  score : d.score g words s.start.toNat = e.inside
  tree : ∀ overruns unaries, (e.children.IsUnary → 0 < unaries) →
    chart.treeWithin g overruns s e.nt unaries = .ok (d.tree s.start.toNat)

namespace Chart

open ChartParsing.Derivation

theorem backs_tag (hg : g.Coherent) (hs : s.within chart.size = true) (hopen : isOpen s)
    (he : (chart.cell s).get? e.nt = some e) {word : UInt32} (hc : e.children = .lexical word)
    (h : Justifies g words chart s e) :
    (Derivation.tag e.nt).Backs g words isOpen chart s e := by
  unfold Justifies at h
  rw [hc] at h
  obtain ⟨hone, rfl, -, htag⟩ := h
  refine ⟨rfl, hone.symm, ⟨_, htag⟩, trivial, ?_, False.elim, hg.lexicalLogProb htag, ?_⟩
  · rw [Derivation.Open, ← hone, Span.ofLength_length hs]
    exact hopen
  · intro overruns unaries _
    rw [treeWithin_lexical hs he hc, Span.stop_eq hs, hone]
    rfl

theorem backs_unary (hg : g.Coherent) (hs : s.within chart.size = true) (hopen : isOpen s)
    (he : (chart.cell s).get? e.nt = some e) {c : ChartEntry} (hc : e.children = .unary c.nt)
    (hunary : ¬c.children.IsUnary) {rule : Score} (hrule : g.HasUnary e.nt c.nt rule)
    (hinside : e.inside = rule + c.inside) {d : Derivation}
    (hd : d.Backs g words isOpen chart s c) :
    (Derivation.unary e.nt d).Backs g words isOpen chart s e := by
  refine ⟨rfl, hd.width, ⟨⟨rule, ?_⟩, hd.licensed⟩, ⟨fun h => hunary (hd.unary h), hd.unchained⟩,
    ⟨?_, hd.isOpen⟩, fun _ => ?_, ?_, ?_⟩
  · rw [hd.root]
    exact hrule
  · rw [hd.width, Span.ofLength_length hs]
    exact hopen
  · rw [hc]
    trivial
  · rw [Derivation.score, hd.root, hg.unaryLogProb hrule, hd.score, hinside]
  · intro overruns unaries hunaries
    obtain ⟨unaries, rfl⟩ := Nat.exists_eq_succ_of_ne_zero
      (Nat.ne_of_gt (hunaries (by rw [hc]; trivial)))
    rw [treeWithin_unary hs he hc (hd.tree overruns unaries fun h => (hunary h).elim),
      Span.stop_eq hs, Derivation.tree, hd.width]

theorem backs_binary (hg : g.Coherent) (hs : s.within chart.size = true) (hopen : isOpen s)
    (he : (chart.cell s).get? e.nt = some e) {key : UInt32} (hc : e.children = .binary key)
    (hm : e.midpoint ∈ s.midpoints) {rule : Score} {l r : ChartEntry}
    (hunpack : g.packing.unpack key = some (l.nt, r.nt))
    (hrule : g.HasBinary e.nt l.nt r.nt rule) (hinside : e.inside = rule + (l.inside + r.inside))
    {left right : Derivation} (hl : left.Backs g words isOpen chart ⟨s.start, e.midpoint⟩ l)
    (hr : right.Backs g words isOpen chart ⟨e.midpoint, s.stop⟩ r) :
    (Derivation.binary e.nt left right).Backs g words isOpen chart s e := by
  obtain ⟨hsplit, hsum⟩ := Span.length_split hs hm
  have hstart : s.start.toNat + left.width = e.midpoint.toNat := by rw [hl.width, hsplit]
  have hwidth : left.width + right.width = s.length := by rw [hl.width, hr.width, hsum]
  have hsize : 0 < g.size := Nat.lt_of_le_of_lt (Nat.zero_le _) hg.start_lt
  refine ⟨rfl, hwidth, ⟨⟨rule, ?_⟩, hl.licensed, ?_⟩, ⟨hl.unchained, hr.unchained⟩,
    ⟨?_, hl.isOpen, ?_⟩, False.elim, ?_, ?_⟩
  · rw [hl.root, hr.root]
    exact hrule
  · rw [hstart]
    exact hr.licensed
  · rw [hwidth, Span.ofLength_length hs]
    exact hopen
  · rw [hstart]
    exact hr.isOpen
  · rw [Derivation.score, hl.root, hr.root, hg.binaryLogProb hrule, hl.score, hstart, hr.score,
      hinside]
  · intro overruns unaries _
    rw [Span.mem_midpoints hs, ← UInt16.lt_iff_toNat_lt, ← UInt16.lt_iff_toNat_lt] at hm
    rw [treeWithin_binary hs he hc hunpack hm unaries (hl.tree overruns g.size fun _ => hsize)
      (hr.tree overruns g.size fun _ => hsize), Span.stop_eq hs, Derivation.tree, hwidth, hstart]

/-- Every entry of an exhaustive chart stands for a derivation. -/
theorem Exhaustive.exists_backs (hg : g.Coherent) (h : Exhaustive g words isOpen chart)
    (hs : s.within chart.size = true) (he : (chart.cell s).get? nt = some e) :
    ∃ d : Derivation, d.Backs g words isOpen chart s e := by
  generalize hn : s.length = n
  -- The parts of a split are shorter; the child of a unary entry is not itself unary.
  induction n using Nat.strongRecOn generalizing s nt e with
  | ind n ih =>
    have hplain : ∀ {nt e}, (chart.cell s).get? nt = some e → ¬e.children.IsUnary →
        ∃ d : Derivation, d.Backs g words isOpen chart s e := by
      intro nt e he hunary
      have hjust := h.justifies hg hs he
      have hopen := h.isOpen_of_get? hs he
      obtain rfl := ((h.ordered s hs).get?_eq_some.1 he).2
      cases hc : e.children with
      | lexical word => exact ⟨_, backs_tag hg hs hopen he hc hjust⟩
      | unary child =>
        rw [hc] at hunary
        exact (hunary trivial).elim
      | binary key =>
        unfold Justifies at hjust
        rw [hc] at hjust
        obtain ⟨hlow, hhigh, left, right, rule, l, r, hunpack, hl, hr, hrule, hinside⟩ := hjust
        have hm : e.midpoint ∈ s.midpoints := by
          rw [Span.mem_midpoints hs, ← UInt16.lt_iff_toNat_lt, ← UInt16.lt_iff_toNat_lt]
          exact ⟨hlow, hhigh⟩
        obtain ⟨⟨hs₁, hinside₁⟩, hs₂, hinside₂⟩ := Span.inside_of_mem_midpoints hs hm
        obtain ⟨d₁, hd₁⟩ := ih _ (hn ▸ hinside₁.length_lt hs) hs₁ hl rfl
        obtain ⟨d₂, hd₂⟩ := ih _ (hn ▸ hinside₂.length_lt hs) hs₂ hr rfl
        obtain rfl := ((h.ordered _ hs₁).get?_eq_some.1 hl).2
        obtain rfl := ((h.ordered _ hs₂).get?_eq_some.1 hr).2
        exact ⟨_, backs_binary hg hs hopen he hc hm hunpack hrule hinside hd₁ hd₂⟩
    by_cases hunary : e.children.IsUnary
    · have hjust := h.justifies hg hs he
      have hopen := h.isOpen_of_get? hs he
      obtain rfl := ((h.ordered s hs).get?_eq_some.1 he).2
      cases hc : e.children with
      | lexical word =>
        rw [hc] at hunary
        exact hunary.elim
      | binary key =>
        rw [hc] at hunary
        exact hunary.elim
      | unary child =>
        unfold Justifies at hjust
        rw [hc] at hjust
        obtain ⟨-, rule, c, hchild, hplainChild, hrule, hinside⟩ := hjust
        obtain ⟨d, hd⟩ := hplain hchild hplainChild
        obtain rfl := ((h.ordered s hs).get?_eq_some.1 hchild).2
        exact ⟨_, backs_unary hg hs hopen he hc hplainChild hrule hinside hd⟩
    · exact hplain he hunary

theorem whole_eq (c : Chart) : c.whole = Span.ofLength 0 c.size := by
  unfold whole Span.ofLength
  rw [Nat.zero_add]
  rfl

end Chart

/-- The tree and the score of a sentence are those of a derivation. -/
structure ParseResult.Derived (g : Grammar) (words : Array UInt32) (tokens : List String)
    (d : Derivation) (r : ParseResult) : Prop where
  root : d.root = g.start
  width : d.width = tokens.length
  licensed : d.Licensed g words 0
  unchained : d.Unchained
  score : d.score g words 0 = r.inside
  tree : r.tree = (d.tree 0).map (fun c => g.label c.value) (fun w => tokens.getD w.value "")
  leaves : r.tree.leaves = tokens
  contiguous : r.tree.Contiguous

namespace Parser

open Chart Schedule

variable {p : Parser} {tokens : List String} {words : Array UInt32} {walk : BottomUp}
  {skipped : List Span} {merit : Merit} {clock : Clock} {g : Grammar}

/-- If the span of the whole sentence has been reached, the time was not over. -/
theorem Accepts.exists_ok (walk : BottomUp) (skipped : List Span) (merit : Merit) (clock : Clock)
    (h : p.Accepts tokens words) (hg : p.grammar.Coherent) (hp : p.Sound)
    (ho : p.options.Unbeamed) :
    let r := p.fillChart tokens (skipping walk skipped) merit clock
    ∀ nt e, (r.2.2.chart.cell (Span.ofLength 0 tokens.length)).get? nt = some e →
      ∃ stats, r.1 = .ok stats := by
  intro r nt e he
  obtain ⟨hsize, reached, rest, hspans, hexhaustive, ⟨-, hok⟩ | ⟨hrest, -, -⟩⟩ :=
    h.exhaustive walk skipped merit clock hg hp ho
  · exact hok
  · have hmax := h.length_le_maximum
    have hpos := List.length_pos_iff.2 h.nonempty
    have hwhole : (Span.ofLength 0 tokens.length).within r.2.2.chart.size = true := by
      rw [hsize]
      exact Span.within_ofLength hmax hpos (by omega)
    have hreached := hexhaustive.isOpen_of_get? hwhole he
    obtain ⟨s, hs⟩ := List.exists_mem_of_ne_nil rest hrest
    -- No span comes after that of the whole sentence.
    have hpairwise := pairwise_unskipped tokens.length hmax skipped
    rw [hspans] at hpairwise
    have hprecedes := (List.pairwise_append.1 hpairwise).2.2 _ hreached s hs
    have hmem : s ∈ unskipped tokens.length skipped := by
      rw [hspans]
      exact List.mem_append_right _ hs
    have hwithin := ((mem_unskipped hmax).1 hmem).1
    unfold Span.Precedes at hprecedes
    rw [Span.length_ofLength (by omega)] at hprecedes
    have hstop := Span.stop_eq hwithin
    rw [Span.within_iff] at hwithin
    rw [(Span.toNat_ofLength 0 tokens.length (by omega)).1] at hprecedes
    omega

/-- The best tree of a sentence on an exhaustive chart is that of a derivation. -/
theorem exists_extract {isOpen : Span → Prop} (hg : p.grammar.Coherent)
    (h : Exhaustive p.grammar words isOpen p.chart) (hsize : p.chart.size = tokens.length)
    (hmax : tokens.length ≤ 65535) {e : ChartEntry}
    (he : p.chart.top?.bind (·.get? p.grammar.start) = some e) :
    (p.chart.cell (Span.ofLength 0 tokens.length)).get? p.grammar.start = some e ∧
      ∃ d : Derivation, d.Backs p.grammar words isOpen p.chart (Span.ofLength 0 tokens.length) e ∧
        d.root = p.grammar.start ∧ ∀ stats, p.extract tokens stats = .ok
          { tree := (d.tree 0).map (fun c => p.grammar.label c.value)
              (fun w => tokens.getD w.value "")
            inside := e.inside
            stats } := by
  have hentry := he
  unfold top? at hentry
  split_ifs at hentry with hpos
  · change (p.chart.cell p.chart.whole).get? p.grammar.start = some e at hentry
    have htokens : p.chart.whole = Span.ofLength 0 tokens.length := by rw [whole_eq, hsize]
    have hwhole : p.chart.whole.within p.chart.size = true := by
      rw [whole_eq]
      exact Span.within_ofLength (by omega) hpos (by omega)
    obtain ⟨d, hd⟩ := h.exists_backs hg hwhole hentry
    have hnt := ((h.ordered _ hwhole).get?_eq_some.1 hentry).2
    have hunaries : 0 < p.grammar.size := Nat.lt_of_le_of_lt (Nat.zero_le _) hg.start_lt
    have htree : p.chart.tree p.grammar p.chart.whole p.grammar.start = .ok (d.tree 0) := by
      rw [← hnt]
      exact hd.tree _ _ fun _ => hunaries
    rw [← htokens]
    refine ⟨hentry, d, hd, hd.root.trans hnt, fun stats => ?_⟩
    unfold extract
    dsimp only
    rw [he]
    dsimp only
    rw [htree]
    rfl
  · cases hentry

/-- Without limits on cells every entry of the chart of a sentence is justified. If the
start symbol has an entry for the whole sentence, the sentence is parsed, with the tree and
the score of a derivation. -/
theorem parse_eq_derivation {source : GrammarSource} {kind : PackingKind}
    (hcompile : Grammar.compile source kind = .ok g) (hp : Reached g (fun _ => True) p)
    (ho : p.options.Unbeamed) (h : p.Accepts tokens words) (walk : BottomUp)
    (skipped : List Span) (merit : Merit) (clock : Clock) :
    let r := p.parseWith tokens (skipping walk skipped) merit clock
    let chart := r.2.2.chart
    (∀ s, s.within tokens.length = true → ∀ e ∈ (chart.cell s).toList,
        Justifies g words chart s e) ∧
      ∀ e, chart.top?.bind (·.get? g.start) = some e →
        ∃ result d, r.1 = .ok result ∧ result.inside = e.inside ∧
          result.Derived g words tokens d := by
  have hg := Grammar.coherent_of_compile hcompile
  obtain ⟨rfl, hsound⟩ := hp.sound hg
  obtain ⟨hsize, reached, rest, -, hexhaustive, -⟩ :=
    h.exhaustive walk skipped merit clock hg hsound ho
  obtain ⟨-, hgrammar, -⟩ := fillChart_keeps hg hsound tokens (skipping walk skipped) merit clock
  have hok := h.exists_ok walk skipped merit clock hg hsound ho
  dsimp only
  rw [parseWith_snd, parseWith_fst]
  dsimp only at hok
  generalize p.fillChart tokens (skipping walk skipped) merit clock = filled at *
  obtain ⟨outcome, schedule, q⟩ := filled
  dsimp only at hsize hexhaustive hgrammar hok ⊢
  refine ⟨fun s hs e he => ?_, fun e he => ?_⟩
  · rw [← hsize] at hs
    exact hexhaustive.justifies hg hs ((hexhaustive.mem_toList hs).1 he)
  · rw [← hgrammar] at hexhaustive he ⊢
    obtain ⟨hentry, d, hd, hroot, hextract⟩ :=
      exists_extract (hgrammar ▸ hg) hexhaustive hsize h.length_le_maximum he
    obtain ⟨stats, rfl⟩ := hok _ _ hentry
    have hwidth := hd.width
    rw [Span.length_ofLength (by have := h.length_le_maximum; omega)] at hwidth
    refine ⟨_, d, hextract stats, rfl, hroot, hwidth, hd.licensed, hd.unchained, hd.score, rfl,
      ?_, Tree.contiguous_map _ _ _ (d.contiguous_tree 0)⟩
    refine (Tree.leaves_map _ (fun i => tokens.getD i "") _).trans ?_
    rw [Derivation.leaves_tree, hwidth]
    refine List.ext_getElem (by simp) fun i hi hi' => ?_
    simp [hi']

/-- A sentence of two words, in the sample with a unary rule. -/
theorem parse_eq_derivation_twice : ∃ g, Grammar.compile (.sample true) .shift = .ok g ∧
    let r := (new g .default .default 1).parseWith ["a", "a"] (skipping .fresh []) .inside .stopped
    let chart := r.2.2.chart
    (∀ s, s.within 2 = true → ∀ e ∈ (chart.cell s).toList, Justifies g #[0, 0] chart s e) ∧
      ∀ e, chart.top?.bind (·.get? g.start) = some e →
        ∃ result d, r.1 = .ok result ∧ result.inside = e.inside ∧
          result.Derived g #[0, 0] ["a", "a"] d := by
  obtain ⟨g, hg, hlexicon, -⟩ := Grammar.exists_sample true
  have haccepts : (new g .default .default 1).Accepts ["a", "a"] #[0, 0] :=
    accepts_twice hlexicon (by change 2 ≤ min 200 65535; decide)
  exact ⟨g, hg, parse_eq_derivation hg (.new .default .default 1) ParserOptions.unbeamed_default
    haccepts .fresh [] .inside .stopped⟩

end Parser
end ChartParsing

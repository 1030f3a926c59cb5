import ChartParsing.Grammar.Compile
import ChartParsing.Proofs.Grammar.Coherent
import ChartParsing.Proofs.Label.Table

/-!
# Compiled grammars are coherent

A source with too many labels is turned down. Every number in a production is therefore that
of a non-terminal, and the tables made of the productions agree.
-/

namespace ChartParsing

/-- Every label stands in one class. -/
theorem Occurrences.length_members (o : Occurrences) :
    (LabelClass.all.flatMap o.members).length = o.labels.length := by
  have h (labels : List String) :
      (LabelClass.all.flatMap fun c => labels.filter fun label => o.classOf label = c).length
        = labels.length := by
    induction labels with
    | nil => rfl
    | cons label labels ih =>
      simp only [LabelClass.all, List.flatMap_cons, List.flatMap_nil, List.filter_cons,
        List.length_append, List.append_nil, List.length_cons] at ih ⊢
      cases o.classOf label <;> simp <;> omega
  exact h o.labels

namespace Grammar

/-- A production names only non-terminals below a bound. -/
def Names (count : Nat) (p : Production) : Prop :=
  p.parent.toNat < count ∧
    match p.expansion with
    | .binary left right => left.toNat < count ∧ right.toNat < count
    | .unary child => child.toNat < count
    | .lexical _ => True

theorem numberIn_lt {labels : LabelTable} (h : labels.Numbered) (hsize : labels.size ≤ 65535)
    {label : String} {n : UInt16} (hn : numberIn labels label = .ok n) :
    n.toNat < labels.size := by
  unfold numberIn at hn
  split at hn
  · rename_i number hnumber
    obtain rfl := Except.ok.inj hn
    have := h label number hnumber
    rw [UInt32.toNat_toUInt16]
    omega
  · cases hn

theorem compileRule_names {labels : LabelTable} (h : labels.Numbered)
    (hsize : labels.size ≤ 65535) {rule : LabelledRule} {p : Production}
    (hp : compileRule labels rule = .ok p) :
    Names labels.size p ∧ (rule.isBinary = true → p.isUnary = false) := by
  unfold compileRule at hp
  rw [bind_eq_ok] at hp
  obtain ⟨parent, hparent, hp⟩ := hp
  rw [bind_eq_ok] at hp
  obtain ⟨left, hleft, hp⟩ := hp
  have hparent := numberIn_lt h hsize hparent
  have hleft := numberIn_lt h hsize hleft
  split at hp
  · rw [bind_eq_ok] at hp
    obtain ⟨right, hright, hp⟩ := hp
    obtain rfl := Except.ok.inj hp
    exact ⟨⟨hparent, hleft, numberIn_lt h hsize hright⟩, fun _ => rfl⟩
  · rename_i hnone
    obtain rfl := Except.ok.inj hp
    refine ⟨⟨hparent, hleft⟩, fun hbinary => ?_⟩
    rw [LabelledRule.isBinary, hnone] at hbinary
    cases hbinary

theorem compileRules_names {labels : LabelTable} (h : labels.Numbered)
    (hsize : labels.size ≤ 65535) {rules : List LabelledRule} {productions : List Production}
    (hp : rules.mapM (compileRule labels) = .ok productions) :
    (∀ p ∈ productions, Names labels.size p) ∧
      ((∀ rule ∈ rules, rule.isBinary = true) → ∀ p ∈ productions, p.isUnary = false) := by
  induction rules generalizing productions with
  | nil =>
    rw [List.mapM_nil] at hp
    obtain rfl := Except.ok.inj hp
    simp
  | cons rule rules ih =>
    rw [List.mapM_cons] at hp
    simp only [bind_eq_ok] at hp
    obtain ⟨p, hrule, rest, hrest, hp⟩ := hp
    obtain rfl := Except.ok.inj hp
    obtain ⟨hnames, hbinary⟩ := compileRule_names h hsize hrule
    obtain ⟨hrestNames, hrestBinary⟩ := ih hrest
    constructor
    · intro q hq
      rcases List.mem_cons.1 hq with rfl | hq
      · exact hnames
      · exact hrestNames q hq
    · intro hall q hq
      rcases List.mem_cons.1 hq with rfl | hq
      · exact hbinary (hall rule List.mem_cons_self)
      · exact hrestBinary (fun r hr => hall r (List.mem_cons_of_mem _ hr)) q hq

theorem compileEntries_names {labels : LabelTable} (h : labels.Numbered)
    (hsize : labels.size ≤ 65535) {entries : List LabelledRule}
    {s s' : LabelTable × List Production} (hs : entries.foldlM (compileEntry labels) s = .ok s')
    (hnames : ∀ p ∈ s.2, Names labels.size p ∧ p.isLexical = true) :
    ∀ p ∈ s'.2, Names labels.size p ∧ p.isLexical = true := by
  refine of_foldlM_eq_ok (P := fun t => ∀ p ∈ t.2, Names labels.size p ∧ p.isLexical = true)
    (fun {s t entry} ht hs => ?_) hs hnames
  unfold compileEntry at ht
  simp only [bind_eq_ok] at ht
  obtain ⟨parent, hparent, ht⟩ := ht
  obtain rfl := Except.ok.inj ht
  exact List.forall_mem_cons.2 ⟨⟨⟨numberIn_lt h hsize hparent, trivial⟩, rfl⟩, hs⟩

/-- A compiled grammar is made of productions that name only its own non-terminals; they
have a unary one only if a rule of the source is unary. -/
theorem compile_ok {source : GrammarSource} {kind : PackingKind} {g : Grammar}
    (h : compile source kind = .ok g) :
    g.size ≤ 65535 ∧ g.start.toNat < g.size ∧ ∃ lexicon bounds productions binary,
      Made g.labels lexicon bounds productions kind g binary ∧
        (∀ p ∈ productions, Names g.size p) ∧
        ((∀ rule ∈ source.rules, rule.isBinary = true) →
          ∀ p ∈ productions, p.isUnary = false) := by
  unfold compile at h
  dsimp only at h
  split_ifs at h with hmany
  · cases h
  · set labels := LabelTable.ofList (LabelClass.all.flatMap (Occurrences.ofSource source).members)
      with hlabels
    obtain ⟨hnumbered, hlength⟩ := LabelTable.numbered_ofList
      (LabelClass.all.flatMap (Occurrences.ofSource source).members)
    rw [Occurrences.length_members, ← hlabels] at hlength
    have hsize : labels.size ≤ 65535 := by
      unfold maxLabels at hmany
      omega
    simp only [bind_eq_ok] at h
    obtain ⟨entries, hentries, rules, hrules, start, hstart, hg⟩ := h
    obtain ⟨hstart', binary, hmade⟩ := ofProductions_ok hg
    have hcount : g.size = labels.size := congrArg LabelTable.size hmade.labels_eq
    have hentryNames := compileEntries_names hnumbered hsize hentries (by simp)
    obtain ⟨hruleNames, hruleBinary⟩ := compileRules_names hnumbered hsize hrules
    refine ⟨by omega, ?_, entries.1, _, _, binary, hmade.labels_eq ▸ hmade, ?_, ?_⟩
    · rw [hstart', hcount]
      exact numberIn_lt hnumbered hsize hstart
    · intro p hp
      rw [hcount]
      rcases List.mem_append.1 hp with hp | hp
      · exact (hentryNames p (List.mem_reverse.1 hp)).1
      · exact hruleNames p hp
    · intro hall p hp
      rcases List.mem_append.1 hp with hp | hp
      · have hlexical := (hentryNames p (List.mem_reverse.1 hp)).2
        unfold Production.isLexical at hlexical
        unfold Production.isUnary
        cases hexp : p.expansion with
        | binary left right => rfl
        | unary child =>
          rw [hexp] at hlexical
          cases hlexical
        | lexical word => rfl
      · exact hruleBinary hall p hp

theorem coherent_of_compile {source : GrammarSource} {kind : PackingKind} {g : Grammar}
    (h : compile source kind = .ok g) : g.Coherent := by
  obtain ⟨hsize, hstart, lexicon, bounds, productions, binary, hmade, hnames, -⟩ := compile_ok h
  exact hmade.coherent hsize hstart fun entry hentry => (hnames _ (mem_lexicalOf.1 hentry)).1

/-- A grammar that was compiled from a source, or made of productions whose start symbol and tags
are among the labels. -/
inductive Built : Grammar → Prop
  | compile {source : GrammarSource} {kind : PackingKind} {g : Grammar}
      (h : Grammar.compile source kind = .ok g) : Built g
  | ofProductions {start : UInt16} {labels lexicon : LabelTable} {bounds : ClassBounds}
      {productions : List Production} {kind : PackingKind} {g : Grammar}
      (h : Grammar.ofProductions start labels lexicon bounds productions kind = .ok g)
      (hsize : labels.size ≤ 65535) (hstart : start.toNat < labels.size)
      (htags : ∀ entry ∈ lexicalOf productions, entry.1.toNat < labels.size) : Built g

theorem Built.coherent {g : Grammar} (h : g.Built) : g.Coherent := by
  cases h with
  | compile h => exact coherent_of_compile h
  | ofProductions h hsize hstart htags =>
    obtain ⟨rfl, binary, hmade⟩ := ofProductions_ok h
    obtain rfl := hmade.labels_eq
    exact hmade.coherent hsize hstart htags

/-- A source without unary rules compiles to a grammar without them. -/
theorem no_unary_of_compile {source : GrammarSource} {kind : PackingKind} {g : Grammar}
    (h : compile source kind = .ok g) (hrules : ∀ rule ∈ source.rules, rule.isBinary = true)
    (parent child : UInt16) (score : Score) : ¬g.HasUnary parent child score := by
  obtain ⟨-, -, lexicon, bounds, productions, binary, hmade, -, hunary⟩ := compile_ok h
  intro hmem
  rw [HasUnary, RowMatrix.mem_row hmade.unaryByParent] at hmem
  obtain ⟨t, ht, -⟩ := Triple.exists_of_total? hmem
  obtain ⟨entry, hentry, -⟩ := List.mem_map.1 ht
  cases hunary hrules _ (mem_unaryOf.1 hentry)

end Grammar
end ChartParsing

import ChartParsing.Proofs.Beam.Truncation

/-!
# A bounded queue is an unbounded one cut short

An unbounded queue is a ranking that forgets nothing. A bounded queue that is given the same calls
hands out the same entries, as long as no more are taken than it has places, and holds the first
entries of the ranking, as many as it has places left. An entry that was evicted is not missed: all
that a later call can do with it is to raise its merit, and for this a new entry does as well.
-/

namespace ChartParsing

namespace BeamQueue

/-! ## Calls -/

/-- What can be done with a queue of which the limit stays as it is. -/
inductive Call where
  | insert (nt : UInt16) (merit : Score)
  | replace (nt : UInt16) (merit : Score)
  | pop

/-- The merit that comes with a call is a number. -/
def Call.IsNumber : Call → Prop
  | .insert _ merit => merit.isNaN = false
  | .replace _ merit => merit.isNaN = false
  | .pop => True

instance : DecidablePred Call.IsNumber
  | .insert _ merit => inferInstanceAs (Decidable (merit.isNaN = false))
  | .replace _ merit => inferInstanceAs (Decidable (merit.isNaN = false))
  | .pop => inferInstanceAs (Decidable True)

/-- A queue after a call, and the entry that the call takes out. -/
def call (q : BeamQueue) : Call → Option (UInt16 × Score) × BeamQueue
  | .insert nt merit => (none, (q.insert nt merit).2)
  | .replace nt merit => (none, (q.replace nt merit).2)
  | .pop =>
    match q.pop? with
    | some (x, r) => (some x, r)
    | none => (none, q)

/-- An unbounded queue after a call, and the entry that the call takes out. -/
def callUnbounded (xs : List (UInt16 × Score)) :
    Call → Option (UInt16 × Score) × List (UInt16 × Score)
  | .insert nt merit => (none, place (nt, merit) xs)
  | .replace nt merit => (none, (rerank nt merit xs).2)
  | .pop => (xs.head?, xs.tail)

/-- What each of the calls takes out, and what is left after them all. -/
def runWith {α : Type} (step : α → Call → Option (UInt16 × Score) × α) :
    α → List Call → List (Option (UInt16 × Score)) × α
  | s, [] => ([], s)
  | s, c :: calls =>
    let first := step s c
    let rest := runWith step first.2 calls
    (first.1 :: rest.1, rest.2)

/-- The number of entries that were taken out. -/
def takenOut (answers : List (Option (UInt16 × Score))) : Nat := answers.countP Option.isSome

section Run

variable {α : Type} (step : α → Call → Option (UInt16 × Score) × α) (s : α)

@[simp] theorem runWith_nil : runWith step s [] = ([], s) := rfl

@[simp] theorem runWith_cons (c : Call) (calls : List Call) :
    runWith step s (c :: calls) =
      ((step s c).1 :: (runWith step (step s c).2 calls).1,
        (runWith step (step s c).2 calls).2) := rfl

@[simp] theorem takenOut_nil : takenOut [] = 0 := rfl

@[simp] theorem takenOut_cons (answer : Option (UInt16 × Score))
    (answers : List (Option (UInt16 × Score))) :
    takenOut (answer :: answers) = takenOut answers + if answer.isSome then 1 else 0 :=
  List.countP_cons

end Run

/-! ## A queue that holds the first entries of a ranking -/

/-- A queue with so many places left holds as many entries of a ranking. -/
structure Truncates (q : BeamQueue) (places : Nat) (xs : List (UInt16 × Score)) : Prop where
  sound : q.Sound
  capacity : q.capacity = places
  ranked : Ranked xs
  toList : q.toList = xs.take places

variable {q : BeamQueue} {places : Nat} {xs : List (UInt16 × Score)}

theorem truncates_clear (q : BeamQueue) (size : Nat) : (q.clear size).Truncates size [] where
  sound := sound_clear q size
  capacity := rfl
  ranked := ranked_nil
  toList := by simp [toList_eq, slots, clear]

namespace Truncates

theorem ranked_toList (h : q.Truncates places xs) : Ranked q.toList := by
  rw [h.toList]
  exact h.ranked.of_sublist (List.take_sublist _ _)

/-- An entry that is put in a queue goes to its place in the ranking, whether the queue still knows
the entries from there on or not. -/
theorem insert (h : q.Truncates places xs) (nt : UInt16) {merit : Score}
    (hmerit : merit.isNaN = false) :
    (q.insert nt merit).2.Truncates places (place (nt, merit) xs) := by
  have hextends := h.sound.insert_extends nt merit
  refine ⟨hextends.sound, hextends.capacity.trans h.capacity, ranked_place h.ranked hmerit, ?_⟩
  calc
    _ = (place (nt, merit) q.toList).take q.capacity :=
      h.sound.toList_insert nt h.ranked_toList hmerit
    _ = _ := by rw [h.toList, h.capacity, take_place]

/-- A merit that is raised is raised in the ranking as well. If the queue has evicted the
non-terminal, it takes the entry for a new one, with the same effect on what it holds. -/
theorem replace (h : q.Truncates places xs) (nt : UInt16) {merit : Score}
    (hmerit : merit.isNaN = false) :
    (q.replace nt merit).2.Truncates places (rerank nt merit xs).2 := by
  have hextends := h.sound.replace_extends nt merit
  refine ⟨hextends.sound, hextends.capacity.trans h.capacity, ranked_rerank h.ranked hmerit, ?_⟩
  calc
    _ = (rerank nt merit q.toList).2.take q.capacity :=
      h.sound.toList_replace h.ranked_toList hmerit
    _ = _ := by rw [h.toList, h.capacity, take_rerank h.ranked]

/-- A queue that has a place left hands out the first entry of the ranking, and gives up the place
with it. -/
theorem pop_cons {x : UInt16 × Score} (h : q.Truncates (places + 1) (x :: xs)) :
    ∃ r, q.pop? = some (x, r) ∧ r.Truncates places xs := by
  have hlist := h.toList
  rw [List.take_succ_cons] at hlist
  cases hpop : q.pop? with
  | none => simp [h.sound.of_pop?_eq_none hpop] at hlist
  | some answer =>
    obtain ⟨y, r⟩ := answer
    obtain ⟨hcons, hsound, hcapacity, -⟩ := h.sound.of_pop?_eq_some hpop
    obtain ⟨rfl, hrest⟩ := List.cons.inj (hcons.symm.trans hlist)
    refine ⟨r, rfl, hsound, ?_, h.ranked.of_sublist (List.sublist_cons_self y xs), hrest⟩
    simp [hcapacity, h.capacity]

theorem pop_nil (h : q.Truncates places []) : q.pop? = none := by
  cases hpop : q.pop? with
  | none => rfl
  | some answer =>
    obtain ⟨hcons, -⟩ := h.sound.of_pop?_eq_some hpop
    simp [h.toList] at hcons

/-- A call has the same answer from a queue and from the ranking that it cuts short, and the queue
cuts short what becomes of the ranking, with a place less if an entry was taken out. -/
theorem call (h : q.Truncates places xs) {c : Call} (hnumber : c.IsNumber)
    (hplaces : takenOut [(callUnbounded xs c).1] ≤ places) :
    (q.call c).1 = (callUnbounded xs c).1 ∧
      (q.call c).2.Truncates (places - takenOut [(callUnbounded xs c).1])
        (callUnbounded xs c).2 := by
  cases c with
  | insert nt merit => exact ⟨rfl, h.insert nt hnumber⟩
  | replace nt merit => exact ⟨rfl, h.replace nt hnumber⟩
  | pop =>
    cases xs with
    | nil =>
      have hpop := h.pop_nil
      simp only [BeamQueue.call, hpop]
      exact ⟨rfl, h⟩
    | cons x xs =>
      obtain ⟨places, rfl⟩ := Nat.exists_eq_add_of_le' hplaces
      obtain ⟨r, hpop, hr⟩ := h.pop_cons
      simp only [BeamQueue.call, hpop]
      exact ⟨rfl, hr⟩

/-- Calls one after another have the same answers from a queue and from the ranking that it cuts
short, as long as no more entries are taken out than there are places. -/
theorem run (h : q.Truncates places xs) {calls : List Call} (hnumber : ∀ c ∈ calls, c.IsNumber)
    (hplaces : takenOut (runWith callUnbounded xs calls).1 ≤ places) :
    (runWith BeamQueue.call q calls).1 = (runWith callUnbounded xs calls).1 ∧
      (runWith BeamQueue.call q calls).2.Truncates
        (places - takenOut (runWith callUnbounded xs calls).1)
        (runWith callUnbounded xs calls).2 := by
  induction calls generalizing q places xs with
  | nil => exact ⟨rfl, h⟩
  | cons c calls ih =>
    obtain ⟨hfirst, hrest⟩ := List.forall_mem_cons.1 hnumber
    simp only [runWith_cons, takenOut_cons] at hplaces ⊢
    have hone : takenOut [(callUnbounded xs c).1] =
        if (callUnbounded xs c).1.isSome then 1 else 0 := by simp
    obtain ⟨hanswer, hstep⟩ := h.call hfirst (by omega)
    obtain ⟨hanswers, hend⟩ := ih hstep hrest (by omega)
    rw [hone, Nat.sub_sub, Nat.add_comm] at hend
    exact ⟨by rw [hanswer, hanswers], hend⟩

end Truncates

/-! ## Limiting a queue -/

theorem Sound.slot_reserve (h : q.Sound) {i : Nat} (hi : i < q.tail) (size : Nat) :
    (q.reserve size).slot i = q.slot i := by
  obtain ⟨hnts, hmerits⟩ := h.lt_size (h.lt_maxTail hi)
  simp [slot, reserve, getElem?_padTo hnts, getElem?_padTo hmerits]

theorem take_slots (q : BeamQueue) (i n size : Nat) :
    (q.slots i n).take size = q.slots i (min size n) := by
  apply List.ext_getElem <;> simp [slots]

/-- A queue that is limited keeps the first entries. -/
theorem Sound.toList_setMaxSize (h : q.Sound) (size : Nat) :
    (q.setMaxSize size).toList = q.toList.take size := by
  have hhead := h.head_le
  have hcount : min q.tail (q.head + size) - q.head = min size (q.tail - q.head) := by omega
  calc
    _ = (q.reserve (q.head + size)).slots q.head (min q.tail (q.head + size) - q.head) := rfl
    _ = q.slots q.head (min size (q.tail - q.head)) := by
      rw [hcount]
      exact slots_congr fun i _ hi => h.slot_reserve (by omega) _
    _ = _ := by rw [toList_eq, take_slots]

theorem Sound.setMaxSize (h : q.Sound) (size : Nat) : (q.setMaxSize size).Sound := by
  have hhead := h.head_le
  refine ⟨roomy_setMaxSize q size, ?_, Nat.min_le_right _ _⟩
  simp [BeamQueue.setMaxSize, reserve, hhead]

@[simp] theorem capacity_setMaxSize (q : BeamQueue) (size : Nat) :
    (q.setMaxSize size).capacity = size := Nat.add_sub_cancel_left _ _

/-! ## Any calls -/

/-- A queue that is cleared, whatever it was used for, and given any calls holds the first entries
of the unbounded queue, one less than its size for each entry that was taken out. It takes out the
same entries, its ends stay in order within its arrays, and limiting it drops the last of its
entries. A call that finds both queues empty takes nothing out and costs no place. -/
theorem runWith_clear (q : BeamQueue) (size : Nat) {calls : List Call}
    (hnumber : ∀ c ∈ calls, c.IsNumber)
    (hpops : takenOut (runWith callUnbounded [] calls).1 ≤ size) :
    let unbounded := runWith callUnbounded [] calls
    let pops := takenOut unbounded.1
    let r := (runWith call (q.clear size) calls).2
    (runWith call (q.clear size) calls).1 = unbounded.1 ∧
      r.toList = unbounded.2.take (size - pops) ∧
      r.toList.Pairwise (fun x y => y.2 ≤ x.2) ∧
      r.head ≤ r.tail ∧ r.tail ≤ r.maxTail ∧
      r.maxTail ≤ r.nts.size ∧ r.maxTail ≤ r.merits.size ∧
      r.capacity = size - pops ∧
      ∀ m, (r.setMaxSize m).toList = r.toList.take m ∧ (r.setMaxSize m).capacity = m ∧
        (r.setMaxSize m).Sound := by
  intro unbounded pops r
  obtain ⟨hanswers, hend⟩ := (truncates_clear q size).run hnumber hpops
  have hsound := hend.sound
  exact ⟨hanswers, hend.toList, hend.ranked_toList.le, hsound.head_le, hsound.tail_le, hsound.nts,
    hsound.merits, hend.capacity, fun m =>
      ⟨hsound.toList_setMaxSize m, capacity_setMaxSize r m, hsound.setMaxSize m⟩⟩

/-- There are three entries for two places. The one that is evicted gets the highest merit after
that, and is taken out first. -/
theorem runWith_clear_evicting :
    let calls : List Call :=
      [.insert 1 (-2), .insert 2 (-1), .insert 3 (-1), .replace 1 0, .pop, .pop]
    (∀ c ∈ calls, c.IsNumber) ∧ takenOut (runWith callUnbounded [] calls).1 ≤ 2 ∧
      (runWith call (empty.clear 2) calls).1 =
        [none, none, none, none, some (1, 0), some (2, -1)] := by
  intro calls
  have hnumber : ∀ c ∈ calls, c.IsNumber := by decide
  have hpops : takenOut (runWith callUnbounded [] calls).1 ≤ 2 := by decide
  exact ⟨hnumber, hpops, (runWith_clear empty 2 hnumber hpops).1.trans rfl⟩

end BeamQueue
end ChartParsing

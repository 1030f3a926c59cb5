import ChartParsing.ByteFormat.Basic
import Mathlib.Data.List.Infix
import Mathlib.Data.List.Pairwise

/-!
# Codes that tell their own end

A codec is exact for a value if it reads the value back, whatever bytes come after its code, and
reads nothing from the beginning of its code alone. That is what is relied on of a byte format
for the values that it writes itself. All ways of composing codecs hand it on, so it holds of
whatever is composed of them.
-/

namespace ChartParsing

namespace Codec

variable {α β : Type} {c : Codec α} {d : Codec β}

/-- The codec restores a value, and never without the whole code of it. -/
structure Exact (c : Codec α) (a : α) : Prop where
  whole : ∀ rest, c.read (c.write a ++ rest) = .ok (a, rest)
  part : ∀ bytes, bytes <+: c.write a → bytes ≠ c.write a → ∃ reason, c.read bytes = .error reason

theorem Exact.via {encode : β → α} {decode : α → β} {b : β} (h : c.Exact (encode b))
    (hb : decode (encode b) = b) : (c.via encode decode).Exact b := by
  constructor
  · intro rest
    change (c.read (c.write (encode b) ++ rest)).map _ = _
    rw [h.whole, Except.map]
    dsimp only
    rw [hb]
  · intro bytes hbegin hne
    obtain ⟨reason, hreason⟩ := h.part bytes hbegin hne
    change ∃ reason, (c.read bytes).map _ = _
    exact ⟨reason, by rw [hreason, Except.map]⟩

/-- The beginning of two codes ends in the first, or it is the first and the beginning of the
second. -/
theorem part_append {bytes xs ys : List UInt8} (hbegin : bytes <+: xs ++ ys)
    (hne : bytes ≠ xs ++ ys) :
    (bytes <+: xs ∧ bytes ≠ xs) ∨ ∃ rest, bytes = xs ++ rest ∧ rest <+: ys ∧ rest ≠ ys := by
  by_cases hshort : bytes <+: xs ∧ bytes ≠ xs
  · exact .inl hshort
  · have hlong : xs <+: bytes := by
      rcases List.prefix_or_prefix_of_prefix hbegin (List.prefix_append xs ys) with h | h
      · rw [not_and, not_not] at hshort
        rw [hshort h]
      · exact h
    obtain ⟨rest, rfl⟩ := hlong
    exact .inr ⟨rest, rfl, (List.prefix_append_right_inj xs).1 hbegin,
      fun heq => hne (by rw [heq])⟩

theorem Exact.pair {v : α × β} (ha : c.Exact v.1) (hb : d.Exact v.2) : (c.pair d).Exact v := by
  constructor
  · intro rest
    simp only [Codec.pair, List.append_assoc, ha.whole, hb.whole, bind, Except.bind, pure,
      Except.pure]
  · intro bytes hbegin hne
    rcases part_append hbegin hne with ⟨hshort, hne⟩ | ⟨rest, rfl, hrest, hne⟩
    · obtain ⟨reason, hreason⟩ := ha.part bytes hshort hne
      exact ⟨reason, by simp only [Codec.pair, hreason, bind, Except.bind]⟩
    · obtain ⟨reason, hreason⟩ := hb.part rest hrest hne
      exact ⟨reason, by simp only [Codec.pair, ha.whole, hreason, bind, Except.bind]⟩

theorem Exact.zipped {c : Codec (List α)} {d : Codec (List β)} {xs : List (α × β)}
    (hc : ∀ as, c.Exact as) (hd : ∀ bs, d.Exact bs) : (c.zipped d).Exact xs :=
  ((hc _).pair (hd _)).via (List.zip_unzip xs)

theorem Exact.elements {c : Codec (List α)} {encode : β → α} {decode : α → β} {xs : Array β}
    (hc : ∀ as, c.Exact as) (h : ∀ x ∈ xs, decode (encode x) = x) :
    (c.elements encode decode).Exact xs := by
  have hback : (xs.toList.map encode).map decode = xs.toList := by
    rw [List.map_map]
    refine (List.map_congr_left fun x hx => ?_).trans (List.map_id _)
    exact h x (Array.mem_toList_iff.1 hx)
  exact (hc _).via (by rw [hback])

end Codec

/-- What is known of the libraries that write bytes: words, scores and texts are written exactly,
and so are sequences of what is written exactly, and sets of keys below their capacity; and a
map goes through each of its entries once. -/
structure ByteFormat.Lawful (f : ByteFormat) : Prop where
  word8 : ∀ n, f.word8.Exact n
  word16 : ∀ n, f.word16.Exact n
  word32 : ∀ n, f.word32.Exact n
  word64 : ∀ n, f.word64.Exact n
  single : ∀ x, f.single.Exact x
  text : ∀ s, f.text.Exact s
  sequence : ∀ {α : Type} (c : Codec α) (xs : List α), (∀ x ∈ xs, c.Exact x) →
    (f.sequence c).Exact xs
  keySet : ∀ (capacity : UInt64) (keys : List UInt32), keys.Pairwise (· < ·) →
    (∀ key ∈ keys, key.toNat < capacity.toNat) → f.keySet.Exact (capacity, keys)
  mapOrder : ∀ entries, (f.mapOrder entries).Perm entries

end ChartParsing

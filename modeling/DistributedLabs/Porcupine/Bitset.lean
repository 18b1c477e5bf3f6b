import Mathlib.Data.Finset.Basic
import Mathlib.Data.List.Basic

/-! The bit sets of the linearizability checker (`porcupine/bitset.go`). A bit set of a fixed number of words is determined
    by its members, so that two of them are equal word by word if and only if they hold the same positions. -/

namespace DistributedLabs.Porcupine

/-- Bits 0 to 63 are in the first word, the next in the second, and so on. -/
structure Bitset where
  words : List (BitVec 64)
  deriving DecidableEq, Repr

/-- The number of words for `bits` positions. -/
def chunks (bits : Nat) : Nat := bits / 64 + if bits % 64 ≠ 0 then 1 else 0

def newBitset (bits : Nat) : Bitset := ⟨List.replicate (chunks bits) 0#64⟩

/-- The word and the bit in it. -/
def bitsetIndex (pos : Nat) : Nat × Nat := (pos / 64, pos % 64)

namespace Bitset

/-- `b[major] |= (1 << minor)`; a position past the words panics. -/
def set (b : Bitset) (pos : Nat) : Option Bitset :=
  let (major, minor) := bitsetIndex pos
  (b.words[major]?).map fun v => ⟨b.words.set major (v ||| 1#64 <<< minor)⟩

/-- `b[major] &^= (1 << minor)` -/
def clear (b : Bitset) (pos : Nat) : Option Bitset :=
  let (major, minor) := bitsetIndex pos
  (b.words[major]?).map fun v => ⟨b.words.set major (v &&& ~~~(1#64 <<< minor))⟩

/-- `bits.OnesCount64` -/
def onesCount (v : BitVec 64) : Nat := (List.range 64).countP v.getLsbD

def popcnt (b : Bitset) : Nat := b.words.foldl (fun total v => total + onesCount v) 0

def hash (b : Bitset) : BitVec 64 := b.words.foldl (fun hash v => hash ^^^ v) (BitVec.ofNat 64 b.popcnt)

def equals (b b2 : Bitset) : Bool :=
  if b.words.length ≠ b2.words.length then false else (b.words.zip b2.words).all fun x => x.1 == x.2

/-! ### Members -/

/-- The bit at a position, if there is one. -/
def mem (b : Bitset) (pos : Nat) : Bool := (b.words[pos / 64]?).any fun v => v.getLsbD (pos % 64)

variable {b b' : Bitset} {pos : Nat}

theorem getLsbD_one_shiftLeft {i j : Nat} (hi : i < 64) (hj : j < 64) : (1#64 <<< i).getLsbD j = decide (j = i) := by
  rw [BitVec.getLsbD_shiftLeft, BitVec.getLsbD_one]
  by_cases hji : j = i
  · subst hji
    simp [hj]
  · have hne : j - i = 0 → j < i := by omega
    by_cases hlt : j < i
    · simp [hlt, hji]
    · have : j - i ≠ 0 := fun h => hlt (hne h)
      simp [hji, this]

/-- What an update of the word of a position does to the members. -/
theorem mem_set_word {v : BitVec 64} (hv : b.words[pos / 64]? = some v) (u : BitVec 64)
    (hother : ∀ j < 64, j ≠ pos % 64 → u.getLsbD j = v.getLsbD j) (i : Nat) :
    (Bitset.mk (b.words.set (pos / 64) u)).mem i = if i = pos then u.getLsbD (pos % 64) else b.mem i := by
  have hlt := (List.getElem?_eq_some_iff.mp hv).1
  unfold mem
  dsimp only
  by_cases hword : i / 64 = pos / 64
  · rw [hword, List.getElem?_set_self hlt, hv]
    simp only [Option.any_some]
    by_cases hi : i = pos
    · rw [if_pos hi, hi]
    · rw [if_neg hi]
      exact hother _ (Nat.mod_lt _ (by decide)) fun hmod => hi (by omega)
  · rw [List.getElem?_set_ne (Ne.symm hword), if_neg (fun hi => hword (by rw [hi]))]

theorem set_spec (hpos : pos / 64 < b.words.length) : ∃ b', b.set pos = some b' ∧
    b'.words.length = b.words.length ∧ ∀ i, b'.mem i = true ↔ i = pos ∨ b.mem i = true := by
  have hv := List.getElem?_eq_getElem hpos
  have hmod : pos % 64 < 64 := Nat.mod_lt _ (by decide)
  refine ⟨⟨b.words.set (pos / 64) (b.words[pos / 64] ||| 1#64 <<< (pos % 64))⟩, ?_, List.length_set, fun i => ?_⟩
  · simp only [set, bitsetIndex, hv, Option.map_some]
  · rw [mem_set_word hv _ fun j hj hne => by
      rw [BitVec.getLsbD_or, getLsbD_one_shiftLeft hmod hj, decide_eq_false hne, Bool.or_false]]
    by_cases hi : i = pos
    · simp [hi, getLsbD_one_shiftLeft hmod hmod]
    · simp [hi]

theorem clear_spec (hpos : pos / 64 < b.words.length) : ∃ b', b.clear pos = some b' ∧
    b'.words.length = b.words.length ∧ ∀ i, b'.mem i = true ↔ i ≠ pos ∧ b.mem i = true := by
  have hv := List.getElem?_eq_getElem hpos
  have hmod : pos % 64 < 64 := Nat.mod_lt _ (by decide)
  refine ⟨⟨b.words.set (pos / 64) (b.words[pos / 64] &&& ~~~(1#64 <<< (pos % 64)))⟩, ?_, List.length_set, fun i => ?_⟩
  · simp only [clear, bitsetIndex, hv, Option.map_some]
  · rw [mem_set_word hv _ fun j hj hne => by
      rw [BitVec.getLsbD_and, BitVec.getLsbD_not, getLsbD_one_shiftLeft hmod hj, decide_eq_false hne]
      simp [hj]]
    by_cases hi : i = pos
    · simp [hi, BitVec.getLsbD_not, getLsbD_one_shiftLeft hmod hmod]
    · simp [hi]

/-- Bit sets of one size with the same members are the same. -/
theorem ext_mem (hlen : b.words.length = b'.words.length) (hmem : ∀ i, b.mem i = true ↔ b'.mem i = true) : b = b' := by
  cases b with
  | mk words =>
    cases b' with
    | mk words' =>
      refine congrArg Bitset.mk (List.ext_getElem hlen fun k hk hk' => ?_)
      refine BitVec.eq_of_getLsbD_eq fun j hj => ?_
      have hdiv : (64 * k + j) / 64 = k := by omega
      have hmod : (64 * k + j) % 64 = j := by omega
      have hbit := hmem (64 * k + j)
      unfold mem at hbit
      dsimp only at hbit hk hk'
      rw [hdiv, hmod, List.getElem?_eq_getElem hk, List.getElem?_eq_getElem hk'] at hbit
      simp only [Option.any_some] at hbit
      exact Bool.eq_iff_iff.mpr hbit

theorem equals_iff : b.equals b' = true ↔ b = b' := by
  unfold equals
  constructor
  · intro h
    split at h
    · cases h
    · rename_i hlen
      rw [not_not] at hlen
      cases b with
      | mk words =>
        cases b' with
        | mk words' =>
          refine congrArg Bitset.mk (List.ext_getElem hlen fun k hk hk' => ?_)
          have hpair : (words[k], words'[k]) ∈ words.zip words' :=
            List.mem_iff_getElem.mpr ⟨k, by rw [List.length_zip]; exact lt_min hk hk', List.getElem_zip⟩
          exact eq_of_beq (List.all_eq_true.mp h _ hpair)
  · rintro rfl
    rw [if_neg (fun hne => hne rfl)]
    refine List.all_eq_true.mpr fun x hx => ?_
    obtain ⟨k, hk, rfl⟩ := List.getElem_of_mem hx
    rw [List.getElem_zip]
    exact beq_self_eq_true _

/-- The bit set, made for `n` positions, holds these. -/
structure Holds (n : Nat) (b : Bitset) (s : Finset Nat) : Prop where
  length : b.words.length = chunks n
  mem_iff : ∀ i, b.mem i = true ↔ i ∈ s

variable {n : Nat} {s s' : Finset Nat}

theorem index_lt {i : Nat} (h : i < n) : i / 64 < chunks n := by
  unfold chunks
  split <;> omega

theorem holds_new (n : Nat) : (newBitset n).Holds n ∅ where
  length := List.length_replicate
  mem_iff i := by
    unfold mem newBitset
    dsimp only
    rw [List.getElem?_replicate]
    split <;> simp

theorem Holds.set (h : b.Holds n s) (hpos : pos < n) : ∃ b', b.set pos = some b' ∧ b'.Holds n (insert pos s) := by
  have hlt : pos / 64 < b.words.length := h.length ▸ index_lt hpos
  obtain ⟨b', hset, hlen, hmem⟩ := set_spec hlt
  refine ⟨b', hset, hlen.trans h.length, fun i => ?_⟩
  rw [hmem, h.mem_iff, Finset.mem_insert]

theorem Holds.clear (h : b.Holds n s) (hpos : pos < n) : ∃ b', b.clear pos = some b' ∧ b'.Holds n (s.erase pos) := by
  have hlt : pos / 64 < b.words.length := h.length ▸ index_lt hpos
  obtain ⟨b', hclear, hlen, hmem⟩ := clear_spec hlt
  refine ⟨b', hclear, hlen.trans h.length, fun i => ?_⟩
  rw [hmem, h.mem_iff, Finset.mem_erase]

theorem Holds.eq_iff (h : b.Holds n s) (h' : b'.Holds n s') : b = b' ↔ s = s' := by
  constructor
  · rintro rfl
    ext i
    rw [← h.mem_iff, h'.mem_iff]
  · rintro rfl
    exact ext_mem (h.length.trans h'.length.symm) fun i => by rw [h.mem_iff, h'.mem_iff]

end Bitset

end DistributedLabs.Porcupine

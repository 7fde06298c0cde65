/-!
Sets of small numbers with a declared width. Two sets are equal as sets when they hold the same
numbers, whatever their widths (`sameBits`).
-/

namespace FeatureLogic

/-- A set of numbers below `size`; the number `i` is in it when bit `i` of `bits` is set. -/
structure BitSet where
  size : Nat
  bits : Nat
  deriving Repr, DecidableEq

namespace BitSet

/-- The empty set of a width. -/
def ofSize (size : Nat) : BitSet := ⟨size, 0⟩

def empty : BitSet := ofSize 0

instance : Inhabited BitSet := ⟨empty⟩

def contains (s : BitSet) (bit : Nat) : Bool := s.bits.testBit bit

/-- Widens the set; a smaller width changes nothing. -/
def grow (s : BitSet) (size : Nat) : BitSet := { s with size := max s.size size }

/-- Adds a number, widening the set to hold it. -/
def insert (s : BitSet) (bit : Nat) : BitSet :=
  ⟨max s.size (bit + 1), s.bits ||| 1 <<< bit⟩

/-- The common numbers, in the width of the first set. -/
def inter (s t : BitSet) : BitSet := ⟨s.size, s.bits &&& t.bits⟩

/-- All numbers of both, in the larger width. -/
def union (s t : BitSet) : BitSet := ⟨max s.size t.size, s.bits ||| t.bits⟩

def isZero (s : BitSet) : Bool := s.bits == 0

def isSubset (s t : BitSet) : Bool := s.bits &&& t.bits == s.bits

/-- Whether two sets hold the same numbers. -/
def sameBits (s t : BitSet) : Bool := s.bits == t.bits

/-- The numbers whose bits are set among the lowest `1 <<< depth` bits, upwards, each moved up by
`first`, before `rest`. A stretch of bits without a set one is passed over at once. -/
def numbers : Nat → Nat → Nat → List Nat → List Nat
  | 0, bits, first, rest => if bits.testBit 0 then first :: rest else rest
  | depth + 1, bits, first, rest =>
    if bits = 0 then rest
    else
      let half := 1 <<< depth
      numbers depth (bits &&& ((1 <<< half) - 1)) first
        (numbers depth (bits >>> half) (first + half) rest)

/-- The numbers of the set, upwards. -/
def toList (s : BitSet) : List Nat := numbers ((s.bits.log2 + 1).log2 + 1) s.bits 0 []

def count (s : BitSet) : Nat := s.toList.length

@[simp] theorem contains_ofSize (size bit : Nat) : (ofSize size).contains bit = false := by
  simp [contains, ofSize]

@[simp] theorem contains_grow (s : BitSet) (size bit : Nat) :
    (s.grow size).contains bit = s.contains bit := rfl

@[simp] theorem contains_insert (s : BitSet) (i j : Nat) :
    (s.insert i).contains j = (s.contains j || i == j) := by
  simp only [contains, insert, Nat.testBit_or, Nat.one_shiftLeft, Nat.testBit_two_pow]
  rfl

@[simp] theorem contains_inter (s t : BitSet) (bit : Nat) :
    (s.inter t).contains bit = (s.contains bit && t.contains bit) := by
  simp [contains, inter]

@[simp] theorem contains_union (s t : BitSet) (bit : Nat) :
    (s.union t).contains bit = (s.contains bit || t.contains bit) := by
  simp [contains, union]

theorem isSubset_iff {s t : BitSet} :
    s.isSubset t = true ↔ ∀ bit, s.contains bit = true → t.contains bit = true := by
  rw [isSubset, beq_iff_eq]
  constructor
  · intro h bit hs
    rw [contains, ← h, Nat.testBit_and, Bool.and_eq_true] at hs
    exact hs.2
  · intro h
    refine Nat.eq_of_testBit_eq fun bit => ?_
    have := h bit
    simp only [contains] at this
    rw [Nat.testBit_and]
    cases hb : s.bits.testBit bit <;> simp_all

theorem sameBits_iff {s t : BitSet} :
    s.sameBits t = true ↔ ∀ bit, s.contains bit = true ↔ t.contains bit = true := by
  rw [sameBits, beq_iff_eq]
  constructor
  · intro h bit
    rw [contains, contains, h]
  · intro h
    exact Nat.eq_of_testBit_eq fun bit => Bool.eq_iff_iff.2 (h bit)

theorem isZero_eq_false_iff {s : BitSet} :
    s.isZero = false ↔ ∃ bit, s.contains bit = true := by
  rw [isZero, beq_eq_false_iff_ne]
  constructor
  · intro h
    obtain ⟨bit, hbit⟩ := Nat.exists_testBit_of_ne_zero h
    exact ⟨bit, hbit⟩
  · rintro ⟨bit, hbit⟩ h
    simp [contains, h] at hbit

theorem numbers_eq (depth bits first : Nat) (rest : List Nat) :
    numbers depth bits first rest =
      ((List.range (1 <<< depth)).filter bits.testBit).map (first + ·) ++ rest := by
  induction depth generalizing bits first rest with
  | zero =>
    have one : List.range (1 <<< 0) = [0] := by decide
    rw [numbers, one]
    cases h : bits.testBit 0 <;> simp [h]
  | succ depth ih =>
    rw [numbers]
    split
    · rename_i h
      simp [h]
    · have double : 1 <<< (depth + 1) = 1 <<< depth + 1 <<< depth := by
        simp only [Nat.one_shiftLeft]
        exact Nat.two_pow_succ depth
      -- the lower bits tell the numbers before the middle, the higher ones those after it
      have low : (List.range (1 <<< depth)).filter (bits &&& ((1 <<< (1 <<< depth)) - 1)).testBit =
          (List.range (1 <<< depth)).filter bits.testBit := by
        refine List.filter_congr fun i hi => ?_
        rw [Nat.one_shiftLeft (1 <<< depth), Nat.testBit_and, Nat.testBit_two_pow_sub_one,
          decide_eq_true (List.mem_range.mp hi), Bool.and_true]
      have high : (bits >>> (1 <<< depth)).testBit = bits.testBit ∘ (1 <<< depth + ·) := by
        funext i
        exact Nat.testBit_shiftRight bits
      simp only [ih, low, high, double, List.range_add, List.filter_append, List.map_append,
        List.filter_map, List.map_map, List.append_assoc]
      congr 3
      funext i
      exact Nat.add_assoc first (1 <<< depth) i

theorem lt_of_testBit {bits i : Nat} (h : bits.testBit i = true) :
    i < 1 <<< ((bits.log2 + 1).log2 + 1) := by
  have far : i < bits.log2 + 1 := by
    refine Nat.lt_succ_of_le (Nat.le_of_not_lt fun beyond => ?_)
    rw [Nat.testBit_lt_two_pow (Nat.lt_of_lt_of_le Nat.lt_log2_self
      (Nat.pow_le_pow_right Nat.two_pos beyond))] at h
    exact Bool.noConfusion h
  rw [Nat.one_shiftLeft]
  exact Nat.lt_trans far Nat.lt_log2_self

@[simp] theorem mem_toList {s : BitSet} {bit : Nat} : bit ∈ s.toList ↔ s.contains bit = true := by
  rw [toList, numbers_eq]
  simp only [List.append_nil, Nat.zero_add, List.map_id', List.mem_filter, List.mem_range, contains]
  exact ⟨And.right, fun h => ⟨lt_of_testBit h, h⟩⟩

theorem pairwise_toList (s : BitSet) : s.toList.Pairwise (· < ·) := by
  rw [toList, numbers_eq]
  simp only [List.append_nil, Nat.zero_add, List.map_id']
  exact List.pairwise_lt_range.filter _

end BitSet

end FeatureLogic

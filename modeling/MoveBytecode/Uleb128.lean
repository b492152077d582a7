import MoveBytecode.Bytes

/-! Numbers of any size as groups of seven bits, the lowest first; a group that another one follows has its high
bit set. The last group of the written form is zero only when the number is. -/

set_option autoImplicit false

namespace MoveBytecode.Uleb128

def groups : Nat → Nat → Bytes
  | 0, n => [UInt8.ofNat n]
  | more + 1, n => if n < 128 then [UInt8.ofNat n] else UInt8.ofNat (n % 128 + 128) :: groups more (n / 128)

/-- The shortest form; no number has more groups than its own value. -/
def encode (n : Nat) : Bytes := groups n n

def groupCount : Nat → Nat → Nat
  | 0, _ => 1
  | more + 1, n => if n < 128 then 1 else groupCount more (n / 128) + 1

def size (n : Nat) : Nat := groupCount n n

def lengthPrefixed (bytes : Bytes) : Bytes := encode bytes.length ++ bytes

theorem groups_of_lt {more n : Nat} (small : n < 128) : groups more n = [UInt8.ofNat n] := by
  cases more with
  | zero => rfl
  | succ more => simp [groups, small]

theorem groups_eq_encode (n : Nat) : ∀ {more : Nat}, n ≤ more → groups more n = encode n := by
  induction n using Nat.strongRecOn with
  | ind n smaller =>
    intro more enough
    by_cases small : n < 128
    · rw [encode, groups_of_lt small, groups_of_lt small]
    · cases n with
      | zero => omega
      | succ n =>
        cases more with
        | zero => omega
        | succ more =>
          have tail : (n + 1) / 128 < n + 1 := by omega
          simp only [encode, groups, small, if_false]
          rw [smaller _ tail (by omega), smaller _ tail (by omega)]

theorem encode_eq (n : Nat) :
    encode n = if n < 128 then [UInt8.ofNat n] else UInt8.ofNat (n % 128 + 128) :: encode (n / 128) := by
  split
  · rename_i small
    exact groups_of_lt small
  · rename_i large
    cases n with
    | zero => omega
    | succ n =>
      simp only [encode, groups, large, if_false]
      rw [groups_eq_encode _ (by omega)]
      rfl

end MoveBytecode.Uleb128

/-!
# Byte strings and big-endian digits

Byte strings are lists of bytes. A number is written as a fixed count of base-256 digits, the most
significant first. Writing and reading are mutually inverse on numbers that fit the count.
-/

namespace SortKey

abbrev Bytes := List UInt8

namespace BigEndian

/-- The least number that has more than `n` base-256 digits. -/
def limit : Nat → Nat
  | 0 => 1
  | n + 1 => 256 * limit n

/-- The low `n` base-256 digits of `m`, the most significant first. -/
def digits : Nat → Nat → Bytes
  | 0, _ => []
  | n + 1, m => UInt8.ofNat (m / limit n) :: digits n m

/-- The number whose base-256 digits are `bs`. -/
def value (bs : Bytes) : Nat :=
  bs.foldl (fun acc b => 256 * acc + b.toNat) 0

theorem limit_pos (n : Nat) : 0 < limit n := by
  induction n with
  | zero => exact Nat.zero_lt_one
  | succ n ih => exact Nat.mul_pos (by decide) ih

theorem limit_add (m n : Nat) : limit (m + n) = limit m * limit n := by
  induction m with
  | zero => rw [Nat.zero_add, limit, Nat.one_mul]
  | succ m ih => rw [Nat.succ_add, limit, limit, ih, Nat.mul_assoc]

@[simp] theorem length_digits (n m : Nat) : (digits n m).length = n := by
  induction n with
  | zero => rfl
  | succ n ih => simp [digits, ih]

@[simp] theorem value_nil : value [] = 0 := rfl

theorem value_foldl (bs : Bytes) (acc : Nat) :
    bs.foldl (fun acc b => 256 * acc + b.toNat) acc = acc * limit bs.length + value bs := by
  induction bs generalizing acc with
  | nil => simp [limit]
  | cons b bs ih =>
      rw [value, List.foldl_cons, List.foldl_cons, ih, ih]
      simp only [List.length_cons, limit]
      grind

theorem value_cons (b : UInt8) (bs : Bytes) :
    value (b :: bs) = b.toNat * limit bs.length + value bs := by
  rw [value, List.foldl_cons, value_foldl]
  simp

theorem value_append (as bs : Bytes) :
    value (as ++ bs) = value as * limit bs.length + value bs := by
  rw [value, List.foldl_append, value_foldl]
  rfl

theorem value_lt (bs : Bytes) : value bs < limit bs.length := by
  induction bs with
  | nil => exact Nat.zero_lt_one
  | cons b bs ih =>
      have hb := b.toNat_lt
      rw [value_cons, List.length_cons, limit]
      calc b.toNat * limit bs.length + value bs
          < b.toNat * limit bs.length + limit bs.length := by omega
        _ = (b.toNat + 1) * limit bs.length := by rw [Nat.succ_mul]
        _ ≤ 256 * limit bs.length := Nat.mul_le_mul_right _ (by omega)

theorem value_digits (n m : Nat) : value (digits n m) = m % limit n := by
  induction n with
  | zero => simp [digits, limit, Nat.mod_one]
  | succ n ih =>
      rw [digits, value_cons, length_digits, ih, limit, Nat.mul_comm 256, Nat.mod_mul]
      simp [Nat.mul_comm, Nat.add_comm]

theorem digits_value (bs : Bytes) : digits bs.length (value bs) = bs := by
  suffices h : ∀ k, digits bs.length (k * limit bs.length + value bs) = bs by simpa using h 0
  induction bs with
  | nil => simp [digits]
  | cons b bs ih =>
      intro k
      have hlt := value_lt bs
      have hsum : k * limit (bs.length + 1) + (b.toNat * limit bs.length + value bs) =
          (256 * k + b.toNat) * limit bs.length + value bs := by
        rw [limit]
        grind
      rw [value_cons, List.length_cons, hsum, digits, ih]
      have hdiv : ((256 * k + b.toNat) * limit bs.length + value bs) / limit bs.length =
          256 * k + b.toNat := by
        rw [Nat.mul_comm, Nat.mul_add_div (limit_pos _), Nat.div_eq_of_lt hlt, Nat.add_zero]
      rw [hdiv]
      congr 1
      apply UInt8.toNat.inj
      simp

end BigEndian

end SortKey

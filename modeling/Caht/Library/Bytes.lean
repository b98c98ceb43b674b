import Mathlib.Tactic
import Mathlib.Data.List.Basic

/-! # Byte strings in memory

A block of memory is the list of its cells. `writeAt` overwrites a span of it,
and `leBytes`/`beBytes` are the two fixed-width images of a number. Nothing here
depends on a particular machine: the width is a parameter throughout.
-/

namespace Caht.Library

variable {α : Type*}

/-- Overwrite the cells from `off` on with `data`, keeping every other cell. -/
def writeAt (mem : List α) (off : ℕ) (data : List α) : List α :=
  mem.take off ++ data ++ mem.drop (off + data.length)

theorem writeAt_length (mem : List α) (off : ℕ) (data : List α)
    (h : off + data.length ≤ mem.length) : (writeAt mem off data).length = mem.length := by
  simp only [writeAt, List.length_append, List.length_take, List.length_drop]
  omega

@[simp] theorem writeAt_nil (mem : List α) (off : ℕ) : writeAt mem off [] = mem := by
  simp [writeAt]

@[simp] theorem writeAt_zero (mem data : List α) :
    writeAt mem 0 data = data ++ mem.drop data.length := by
  simp [writeAt]

theorem writeAt_append (mem a b : List α) (off : ℕ) (h : off ≤ mem.length) :
    writeAt (writeAt mem off a) (off + a.length) b = writeAt mem off (a ++ b) := by
  have ht : (mem.take off ++ a ++ mem.drop (off + a.length)).take (off + a.length) =
      mem.take off ++ a := by
    rw [List.take_append_of_le_length (by simp [h]), List.take_of_length_le (by simp [h])]
  have hd : (mem.take off ++ a ++ mem.drop (off + a.length)).drop (off + a.length + b.length) =
      mem.drop (off + (a ++ b).length) := by
    rw [List.drop_append, List.drop_of_length_le (by simp [h]), List.nil_append,
      List.drop_drop]
    congr 1
    simp [h]
    omega
  rw [writeAt, writeAt, writeAt, ht, hd]
  simp

theorem writeAt_append_left (a b data : List α) (off : ℕ) (h : off ≤ a.length) :
    writeAt (a ++ b) off data = writeAt a off data ++ b.drop (off + data.length - a.length) := by
  rw [writeAt, writeAt, List.take_append_of_le_length h, List.drop_append]
  simp only [List.append_assoc]

theorem length_writeAt_ge (mem data : List α) (off : ℕ) (h : off ≤ mem.length) :
    off + data.length ≤ (writeAt mem off data).length := by
  simp only [writeAt, List.length_append, List.length_take, List.length_drop]
  omega

theorem flatMap_block {β : Type*} (g : β → List α) (w : ℕ) (hg : ∀ b, (g b).length = w)
    (l : List β) (rest : List α) (i : ℕ) (hi : i < l.length) :
    ((l.flatMap g ++ rest).drop (i * w)).take w = g l[i] := by
  induction l generalizing i with
  | nil => simp at hi
  | cons b l ih =>
    cases i with
    | zero => simp [← hg b]
    | succ i =>
      have hd : (i + 1) * w = (g b).length + i * w := by rw [hg]; ring
      rw [List.flatMap_cons, List.append_assoc, hd, ← List.drop_drop, List.drop_left]
      simpa using ih i (by simpa using hi)

theorem flatMap_length {β : Type*} (g : β → List α) (w : ℕ) (hg : ∀ b, (g b).length = w)
    (l : List β) : (l.flatMap g).length = l.length * w := by
  induction l with
  | nil => simp
  | cons b l ih =>
    rw [List.flatMap_cons, List.length_append, ih, hg, List.length_cons]
    ring

/-! ## Fixed-width numbers -/

/-- The `w` bytes of `n`, least significant first. Higher digits are dropped. -/
def leBytes : ℕ → ℕ → List UInt8
  | 0, _ => []
  | w + 1, n => UInt8.ofNat n :: leBytes w (n / 256)

def leValue (l : List UInt8) : ℕ := l.foldr (fun b v => b.toNat + 256 * v) 0

/-- The same bytes, most significant first. -/
def beBytes (w n : ℕ) : List UInt8 := (leBytes w n).reverse

def beValue (l : List UInt8) : ℕ := leValue l.reverse

@[simp] theorem leBytes_length (w n : ℕ) : (leBytes w n).length = w := by
  induction w generalizing n with
  | zero => rfl
  | succ w ih => simp [leBytes, ih]

@[simp] theorem beBytes_length (w n : ℕ) : (beBytes w n).length = w := by
  simp [beBytes]

theorem leValue_cons (b : UInt8) (l : List UInt8) :
    leValue (b :: l) = b.toNat + 256 * leValue l := rfl

theorem leValue_lt (l : List UInt8) : leValue l < 256 ^ l.length := by
  induction l with
  | nil => simp [leValue]
  | cons b l ih =>
    have hb : b.toNat < 256 := b.toNat_lt
    rw [leValue_cons, List.length_cons, pow_succ]
    omega

theorem leValue_leBytes (w n : ℕ) : leValue (leBytes w n) = n % 256 ^ w := by
  induction w generalizing n with
  | zero => simp [leBytes, leValue, Nat.mod_one]
  | succ w ih =>
    have hb : (UInt8.ofNat n).toNat = n % 256 := UInt8.toNat_ofNat'
    rw [leBytes, leValue_cons, ih, hb, pow_succ', Nat.mod_mul (x := n)]

theorem leBytes_leValue (l : List UInt8) : leBytes l.length (leValue l) = l := by
  induction l with
  | nil => rfl
  | cons b l ih =>
    have hb : b.toNat < 256 := b.toNat_lt
    have hd : (b.toNat + 256 * leValue l) / 256 = leValue l := by omega
    have hm : UInt8.ofNat (b.toNat + 256 * leValue l) = b := by
      apply UInt8.toNat_inj.mp
      rw [UInt8.toNat_ofNat']
      omega
    rw [List.length_cons, leValue_cons, leBytes, hd, hm, ih]

theorem leBytes_mod (w n : ℕ) : leBytes w (n % 256 ^ w) = leBytes w n := by
  have h := leBytes_leValue (leBytes w n)
  rwa [leBytes_length, leValue_leBytes] at h

theorem leBytes_add (a b n : ℕ) : leBytes (a + b) n = leBytes a n ++ leBytes b (n / 256 ^ a) := by
  induction a generalizing n with
  | zero => simp [leBytes]
  | succ a ih =>
    rw [Nat.succ_add, leBytes, ih, leBytes, Nat.div_div_eq_div_mul, pow_succ']
    rfl

theorem leBytes_add_mul (a b x y : ℕ) (hx : x < 256 ^ a) :
    leBytes (a + b) (x + 256 ^ a * y) = leBytes a x ++ leBytes b y := by
  have hm : leBytes a (x + 256 ^ a * y) = leBytes a x := by
    rw [← leBytes_mod, Nat.add_mul_mod_self_left, leBytes_mod]
  rw [leBytes_add, hm, Nat.add_mul_div_left _ _ (by positivity), Nat.div_eq_of_lt hx, Nat.zero_add]

theorem beValue_beBytes (w n : ℕ) (h : n < 256 ^ w) : beValue (beBytes w n) = n := by
  rw [beValue, beBytes, List.reverse_reverse, leValue_leBytes, Nat.mod_eq_of_lt h]

theorem beBytes_beValue (l : List UInt8) : beBytes l.length (beValue l) = l := by
  have h := leBytes_leValue l.reverse
  rw [List.length_reverse] at h
  rw [beBytes, beValue, h, List.reverse_reverse]

/-- The number whose little-endian image is the big-endian image of `n`. -/
def byteSwap (w n : ℕ) : ℕ := leValue (beBytes w n)

theorem byteSwap_lt (w n : ℕ) : byteSwap w n < 256 ^ w := by
  simpa [byteSwap] using leValue_lt (beBytes w n)

theorem leBytes_byteSwap (w n : ℕ) : leBytes w (byteSwap w n) = beBytes w n := by
  have h := leBytes_leValue (beBytes w n)
  rwa [beBytes_length] at h

end Caht.Library

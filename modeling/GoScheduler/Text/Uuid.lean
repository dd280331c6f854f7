import GoScheduler.Text.Json
import Mathlib.Tactic.Ring

/-! UUIDs: the form PostgreSQL writes, the forms it reads, and the forms that
`github.com/google/uuid` accepts. -/
namespace GoScheduler.Text.Uuid

def hyphen : UInt8 := 45

def textFrom : ℕ → ℕ → Bytes
  | 0, _ => []
  | k + 1, n =>
      hexDigit (n / 16 ^ (2 * k + 1) % 16) :: hexDigit (n / 16 ^ (2 * k) % 16) ::
        ((if k = 12 ∨ k = 10 ∨ k = 8 ∨ k = 6 then [hyphen] else []) ++ textFrom k n)

def text (id : Fin (2 ^ 128)) : Bytes := textFrom 16 id

def skipHyphen : Bytes → Bytes
  | [] => []
  | b :: rest => if b = hyphen then rest else b :: rest

/-- The loop of `string_to_uuid`, with `k` bytes to go: a hyphen may follow every second byte. -/
def readFrom : ℕ → ℕ → Bytes → Option (ℕ × Bytes)
  | 0, acc, s => some (acc, s)
  | k + 1, acc, a :: b :: s => do
      let high ← hexValue a
      let low ← hexValue b
      readFrom k (256 * acc + 16 * high + low) (if k % 2 = 0 ∧ k ≠ 0 then skipHyphen s else s)
  | _ + 1, _, _ => none

def read (s : Bytes) : Option ℕ := do
  let braces := s.head? = some 0x7B
  let (n, rest) ← readFrom 16 0 (if braces then s.tail else s)
  if rest = (if braces then [0x7D] else []) then some n else none

def isHex (b : UInt8) : Bool := (hexValue b).isSome

def isStandard (s : Bytes) : Bool :=
  s.length = 36 && [8, 13, 18, 23].all (fun i => s.getD i 0 = hyphen) &&
    [0, 2, 4, 6, 9, 11, 14, 16, 19, 21, 24, 26, 28, 30, 32, 34].all fun i =>
      isHex (s.getD i 0) && isHex (s.getD (i + 1) 0)

def lower (b : UInt8) : UInt8 := if 65 ≤ b ∧ b ≤ 90 then b + 32 else b

def validate (s : Bytes) : Bool :=
  if s.length = 36 then isStandard s
  else if s.length = 45 then (s.take 9).map lower = bytes "urn:uuid:" && isStandard (s.drop 9)
  else if s.length = 38 then
    s.head? = some 0x7B && s.getLast? = some 0x7D && isStandard s.tail.dropLast
  else s.length = 32 && s.all isHex

theorem hexDigit_ne_hyphen : ∀ n < 16, hexDigit n ≠ hyphen := by decide

@[simp] theorem isHex_hexDigit (n : ℕ) : isHex (hexDigit (n % 16)) = true := by
  rw [isHex, hexValue_hexDigit _ (Nat.mod_lt n (by omega)), Option.isSome_some]

theorem validate_text (id : Fin (2 ^ 128)) : validate (text id) = true := by
  simp [text, textFrom, validate, isStandard]

theorem length_text (id : Fin (2 ^ 128)) : (text id).length = 36 := by
  simp [text, textFrom]

theorem skipHyphen_textFrom (k n : ℕ) : skipHyphen (textFrom k n) = textFrom k n := by
  cases k with
  | zero => rfl
  | succ k => rw [textFrom, skipHyphen, if_neg (hexDigit_ne_hyphen _ (Nat.mod_lt _ (by omega)))]

theorem mod_byte (n k : ℕ) : n % 256 ^ (k + 1) =
    256 ^ k * (16 * (n / 16 ^ (2 * k + 1) % 16) + n / 16 ^ (2 * k) % 16) + n % 256 ^ k := by
  have hpow : 256 ^ k = 16 ^ (2 * k) := by rw [pow_mul, show 16 ^ 2 = 256 from rfl]
  have hbyte : n / 256 ^ k % 256 =
      16 * (n / 16 ^ (2 * k + 1) % 16) + n / 16 ^ (2 * k) % 16 := by
    rw [hpow, pow_succ, ← Nat.div_div_eq_div_mul]
    omega
  rw [pow_succ, Nat.mod_mul, hbyte, Nat.add_comm]

theorem readFrom_textFrom (k acc n : ℕ) :
    readFrom k acc (textFrom k n) = some (acc * 256 ^ k + n % 256 ^ k, []) := by
  induction k generalizing acc with
  | zero => simp [readFrom, textFrom, Nat.mod_one]
  | succ k ih =>
    have hhigh := hexValue_hexDigit (n / 16 ^ (2 * k + 1) % 16) (Nat.mod_lt _ (by omega))
    have hlow := hexValue_hexDigit (n / 16 ^ (2 * k) % 16) (Nat.mod_lt _ (by omega))
    have hrest : (if k % 2 = 0 ∧ k ≠ 0 then
        skipHyphen ((if k = 12 ∨ k = 10 ∨ k = 8 ∨ k = 6 then [hyphen] else []) ++ textFrom k n)
      else (if k = 12 ∨ k = 10 ∨ k = 8 ∨ k = 6 then [hyphen] else []) ++ textFrom k n) =
        textFrom k n := by
      by_cases hhyphen : k = 12 ∨ k = 10 ∨ k = 8 ∨ k = 6
      · rw [if_pos hhyphen, if_pos (by omega)]
        rfl
      · rw [if_neg hhyphen, List.nil_append, skipHyphen_textFrom, ite_self]
    rw [textFrom, readFrom, hhigh, hlow]
    simp only [bind, Option.bind, hrest, ih, mod_byte n k]
    congr 2
    ring

theorem read_text (id : Fin (2 ^ 128)) : read (text id) = some id.val := by
  have hbraces : (text id).head? ≠ some 0x7B := by
    have hne : ∀ n < 16, hexDigit n ≠ 0x7B := by decide
    rw [text, textFrom, List.head?_cons]
    exact fun h => hne _ (Nat.mod_lt _ (by omega)) (Option.some.inj h)
  have hloop := readFrom_textFrom 16 0 id
  rw [Nat.zero_mul, Nat.zero_add, Nat.mod_eq_of_lt (by simp)] at hloop
  simp only [read, if_neg hbraces, bind, Option.bind]
  rw [text, hloop]
  simp

end GoScheduler.Text.Uuid

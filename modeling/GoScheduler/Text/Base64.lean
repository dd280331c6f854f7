import GoScheduler.Text.Utf8

/-! The alphabet of base 64 that is safe in URLs, without padding, as Go's
`base64.RawURLEncoding` writes and reads it. -/
namespace GoScheduler.Text.Base64

def encodeDigit (n : ℕ) : UInt8 :=
  if n < 26 then UInt8.ofNat (65 + n)
  else if n < 52 then UInt8.ofNat (71 + n)
  else if n < 62 then UInt8.ofNat (n - 4)
  else if n = 62 then 45
  else 95

def decodeDigit (c : UInt8) : Option ℕ :=
  if 65 ≤ c ∧ c ≤ 90 then some (c.toNat - 65)
  else if 97 ≤ c ∧ c ≤ 122 then some (c.toNat - 71)
  else if 48 ≤ c ∧ c ≤ 57 then some (c.toNat + 4)
  else if c = 45 then some 62
  else if c = 95 then some 63
  else none

def sextets : Bytes → List ℕ
  | a :: b :: c :: rest =>
      a.toNat / 4 :: (a.toNat % 4 * 16 + b.toNat / 16) :: (b.toNat % 16 * 4 + c.toNat / 64) ::
        c.toNat % 64 :: sextets rest
  | [a, b] => [a.toNat / 4, a.toNat % 4 * 16 + b.toNat / 16, b.toNat % 16 * 4]
  | [a] => [a.toNat / 4, a.toNat % 4 * 16]
  | [] => []

/-- The bits that fill up the last group are not looked at. -/
def octets : List ℕ → Option Bytes
  | w :: x :: y :: z :: rest => (octets rest).map fun s =>
      UInt8.ofNat (4 * w + x / 16) :: UInt8.ofNat (x % 16 * 16 + y / 4) ::
        UInt8.ofNat (y % 4 * 64 + z) :: s
  | [w, x, y] => some [UInt8.ofNat (4 * w + x / 16), UInt8.ofNat (x % 16 * 16 + y / 4)]
  | [w, x] => some [UInt8.ofNat (4 * w + x / 16)]
  | [_] => none
  | [] => some []

def encode (s : Bytes) : Bytes := (sextets s).map encodeDigit

/-- Line ends are passed over wherever they are. -/
def decode (s : Bytes) : Option Bytes :=
  ((s.filter fun b => b ≠ 10 ∧ b ≠ 13).mapM decodeDigit).bind octets

theorem decodeDigit_encodeDigit : ∀ n < 64, decodeDigit (encodeDigit n) = some n := by decide

theorem encodeDigit_ne : ∀ n < 64, encodeDigit n ≠ 10 ∧ encodeDigit n ≠ 13 := by decide

theorem lt_of_mem_sextets (s : Bytes) : ∀ n ∈ sextets s, n < 64 := by
  fun_induction sextets s with
  | case1 a b c rest ih =>
    have ha := a.toNat_lt
    have hb := b.toNat_lt
    have hc := c.toNat_lt
    simp only [List.forall_mem_cons]
    exact ⟨by omega, by omega, by omega, by omega, ih⟩
  | case2 a b =>
    have ha := a.toNat_lt
    have hb := b.toNat_lt
    simp only [List.forall_mem_cons]
    exact ⟨by omega, by omega, by omega, by simp⟩
  | case3 a =>
    have ha := a.toNat_lt
    simp only [List.forall_mem_cons]
    exact ⟨by omega, by omega, by simp⟩
  | case4 => simp

theorem octets_sextets (s : Bytes) : octets (sextets s) = some s := by
  have hbyte : ∀ (a : UInt8) (n : ℕ), n = a.toNat → UInt8.ofNat n = a := by
    intro a n hn
    rw [hn, UInt8.ofNat_toNat]
  fun_induction sextets s with
  | case1 a b c rest ih =>
    have hb := b.toNat_lt
    have hc := c.toNat_lt
    rw [octets, ih, Option.map_some, hbyte a _ (by omega), hbyte b _ (by omega),
      hbyte c _ (by omega)]
  | case2 a b =>
    have hb := b.toNat_lt
    rw [octets, hbyte a _ (by omega), hbyte b _ (by omega)]
  | case3 a => rw [octets, hbyte a _ (by omega)]
  | case4 => rfl

theorem length_sextets_le (s : Bytes) : 3 * (sextets s).length ≤ 4 * s.length + 2 := by
  fun_induction sextets s with
  | case1 a b c rest ih =>
    simp only [List.length_cons]
    omega
  | case2 => simp
  | case3 => simp
  | case4 => simp

theorem length_encode_le (s : Bytes) : 3 * (encode s).length ≤ 4 * s.length + 2 := by
  rw [encode, List.length_map]
  exact length_sextets_le s

theorem decode_encode (s : Bytes) : decode (encode s) = some s := by
  have hlt := lt_of_mem_sextets s
  have hfilter : (encode s).filter (fun b => b ≠ 10 ∧ b ≠ 13) = encode s := by
    rw [List.filter_eq_self]
    intro b hb
    obtain ⟨n, hn, rfl⟩ := List.mem_map.1 hb
    exact decide_eq_true (encodeDigit_ne n (hlt n hn))
  have hdigits : ∀ ns : List ℕ, (∀ n ∈ ns, n < 64) →
      (ns.map encodeDigit).mapM decodeDigit = some ns := by
    intro ns hns
    induction ns with
    | nil => rfl
    | cons n ns ih =>
      obtain ⟨hn, hns⟩ := List.forall_mem_cons.1 hns
      rw [List.map_cons, List.mapM_cons, decodeDigit_encodeDigit n hn, ih hns]
      rfl
  rw [decode, hfilter, encode, hdigits _ hlt]
  exact octets_sextets s

end GoScheduler.Text.Base64

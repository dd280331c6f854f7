import Mathlib.Data.List.Basic

/-! Byte strings read as UTF-8, one character after the other; a byte that starts no
character stands alone. -/
namespace GoScheduler.Text

abbrev Bytes : Type := List UInt8

def bytes (s : String) : Bytes := s.toUTF8.data.toList

theorem bytes_injective : Function.Injective bytes := by
  intro a b h
  have hdata : a.toUTF8.data = b.toUTF8.data := Array.toList_inj.1 h
  exact String.toByteArray_inj.1 (ByteArray.ext hdata)

/-- A character with its bytes, or a byte that belongs to none. -/
inductive Rune where
  | valid (source : Bytes)
  | invalid (b : UInt8)
  deriving DecidableEq

def replacement : Bytes := [0xEF, 0xBF, 0xBD]

namespace Rune

def source : Rune → Bytes
  | .valid bs => bs
  | .invalid b => [b]

def replaced : Rune → Bytes
  | .valid bs => bs
  | .invalid _ => replacement

def isValid : Rune → Bool
  | .valid _ => true
  | .invalid _ => false

theorem replaced_of_isValid {r : Rune} (h : r.isValid = true) : r.replaced = r.source := by
  cases r with
  | valid bs => rfl
  | invalid b => cases h

end Rune

def isTail (b : UInt8) : Bool := 0x80 ≤ b && b ≤ 0xBF

def tails : ℕ → Bytes → Bool
  | 0, _ => true
  | _ + 1, [] => false
  | k + 1, b :: rest => isTail b && tails k rest

/-- Whether `b` may be the second byte after the lead byte `a`: no overlong form, no
surrogate, nothing above U+10FFFF. -/
def accepts (a b : UInt8) : Bool :=
  if a = 0xE0 then 0xA0 ≤ b && b ≤ 0xBF
  else if a = 0xED then 0x80 ≤ b && b ≤ 0x9F
  else if a = 0xF0 then 0x90 ≤ b && b ≤ 0xBF
  else if a = 0xF4 then 0x80 ≤ b && b ≤ 0x8F
  else isTail b

def follows (a : UInt8) (k : ℕ) : Bytes → Bool
  | [] => false
  | b :: rest => accepts a b && tails k rest

def runeLength : Bytes → ℕ
  | [] => 0
  | a :: rest =>
      if a < 0x80 then 1
      else if 0xC2 ≤ a && a ≤ 0xDF then if follows a 0 rest then 2 else 0
      else if 0xE0 ≤ a && a ≤ 0xEF then if follows a 1 rest then 3 else 0
      else if 0xF0 ≤ a && a ≤ 0xF4 then if follows a 2 rest then 4 else 0
      else 0

def runesFrom : ℕ → Bytes → List Rune
  | _, [] => []
  | skip + 1, _ :: rest => runesFrom skip rest
  | 0, a :: rest => match runeLength (a :: rest) with
      | 0 => .invalid a :: runesFrom 0 rest
      | k + 1 => .valid (a :: rest.take k) :: runesFrom k rest

def runes (s : Bytes) : List Rune := runesFrom 0 s

def sanitize (s : Bytes) : Bytes := (runes s).flatMap Rune.replaced

def valid (s : Bytes) : Bool := (runes s).all Rune.isValid

def decode (s : Bytes) : Option String := String.fromUTF8? ⟨s.toArray⟩

/-- `invalid`: the byte before belongs to no character. -/
def toValidFrom : Bool → List Rune → Bytes
  | _, [] => []
  | _, .valid bs :: rest => bs ++ toValidFrom false rest
  | invalid, .invalid _ :: rest => (if invalid then [] else replacement) ++ toValidFrom true rest

def toValidUTF8 (s : Bytes) : Bytes := toValidFrom false (runes s)

theorem source_runesFrom (skip : ℕ) (s : Bytes) :
    (runesFrom skip s).flatMap Rune.source = s.drop skip := by
  -- the count of skipped bytes is what a character has left of its own
  induction s generalizing skip with
  | nil => cases skip <;> rfl
  | cons a rest ih =>
    cases skip with
    | succ skip => exact ih skip
    | zero =>
      rw [runesFrom]
      split
      · rw [List.flatMap_cons, ih 0]
        rfl
      · next k hk =>
        rw [List.flatMap_cons, ih k]
        exact congrArg (a :: ·) (List.take_append_drop k rest)

theorem sanitize_of_valid {s : Bytes} (h : valid s = true) : sanitize s = s := by
  have hmap : (runes s).flatMap Rune.replaced = (runes s).flatMap Rune.source := by
    rw [List.flatMap_def, List.flatMap_def]
    congr 1
    exact List.map_congr_left fun r hr => Rune.replaced_of_isValid (List.all_eq_true.1 h r hr)
  rw [sanitize, hmap]
  exact source_runesFrom 0 s

theorem runes_ascii_cons {a : UInt8} (ha : a < 0x80) (rest : Bytes) :
    runes (a :: rest) = .valid [a] :: runes rest := by
  have hlen : runeLength (a :: rest) = 1 := by rw [runeLength, if_pos ha]
  rw [runes, runesFrom, hlen]
  rfl

theorem valid_of_ascii {s : Bytes} (h : ∀ b ∈ s, b < 0x80) : valid s = true := by
  induction s with
  | nil => rfl
  | cons a rest ih =>
    rw [valid, runes_ascii_cons (h a List.mem_cons_self), List.all_cons]
    exact ih fun b hb => h b (List.mem_cons_of_mem a hb)

theorem ge_of_isTail {b : UInt8} (h : isTail b = true) : 0x80 ≤ b := by
  simp only [isTail, Bool.and_eq_true, decide_eq_true_eq] at h
  exact h.1

theorem isTail_iff (b : UInt8) : isTail b = true ↔ b &&& 0xC0 = 0x80 := by
  have hall : ∀ x : Fin 256, isTail ⟨⟨x⟩⟩ = true ↔ (⟨⟨x⟩⟩ : UInt8) &&& 0xC0 = 0x80 := by
    decide +kernel
  exact hall b.toBitVec.toFin

theorem isTail_of_accepts {a b : UInt8} (h : accepts a b = true) : isTail b = true := by
  unfold accepts isTail at *
  simp only [UInt8.le_iff_toNat_le] at *
  split_ifs at h <;> simp at h ⊢ <;> omega

theorem isTail_of_tails {k : ℕ} {s : Bytes} (h : tails k s = true) :
    ∀ b ∈ s.take k, isTail b = true := by
  induction k generalizing s with
  | zero => simp
  | succ k ih =>
    cases s with
    | nil => simp
    | cons b rest =>
      rw [tails, Bool.and_eq_true] at h
      intro c hc
      rcases List.mem_cons.1 hc with rfl | hc
      · exact h.1
      · exact ih h.2 c hc

theorem isTail_of_follows {a : UInt8} {k : ℕ} {s : Bytes} (h : follows a k s = true) :
    ∀ b ∈ s.take (k + 1), isTail b = true := by
  cases s with
  | nil => cases h
  | cons b rest =>
    rw [follows, Bool.and_eq_true] at h
    intro c hc
    rcases List.mem_cons.1 hc with rfl | hc
    · exact isTail_of_accepts h.1
    · exact isTail_of_tails h.2 c hc

theorem tails_take {k : ℕ} {s : Bytes} (h : tails k s = true) (j : ℕ) :
    tails k (s.take j) = decide (k ≤ j) := by
  induction k generalizing s j with
  | zero => simp [tails]
  | succ k ih =>
    cases s with
    | nil => cases h
    | cons b rest =>
      rw [tails, Bool.and_eq_true] at h
      cases j with
      | zero => simp [tails]
      | succ j => simp [tails, h.1, ih h.2 j]

theorem follows_take {a : UInt8} {k : ℕ} {s : Bytes} (h : follows a k s = true) (j : ℕ) :
    follows a k (s.take j) = decide (k + 1 ≤ j) := by
  cases s with
  | nil => cases h
  | cons b rest =>
    rw [follows, Bool.and_eq_true] at h
    cases j with
    | zero => simp [follows]
    | succ j => simp [follows, h.1, tails_take h.2 j]

structure Leads (a : UInt8) (rest : Bytes) (k : ℕ) : Prop where
  lead : isTail a = false
  tails : ∀ b ∈ rest.take k, isTail b = true
  short : k ≤ 3
  enough : k ≤ rest.length
  take : ∀ j, runeLength (a :: rest.take j) = if k ≤ j then k + 1 else 0

theorem length_of_follows {a : UInt8} {k : ℕ} {s : Bytes} (h : follows a k s = true) :
    k + 1 ≤ s.length := by
  have htake := follows_take h s.length
  rw [List.take_length, h] at htake
  exact of_decide_eq_true htake.symm

theorem isTail_eq_false {a : UInt8} (h : a < 0x80 ∨ 0xC2 ≤ a) : isTail a = false := by
  unfold isTail
  simp only [UInt8.le_iff_toNat_le, UInt8.lt_iff_toNat_lt] at h ⊢
  simp at h ⊢
  omega

theorem leads_of_follows {a : UInt8} {rest : Bytes} {k : ℕ} (h : follows a k rest = true)
    (hlead : 0xC2 ≤ a) (hshort : k ≤ 2)
    (htake : ∀ j, runeLength (a :: rest.take j) = if follows a k (rest.take j) then k + 2 else 0) :
    Leads a rest (k + 1) where
  lead := isTail_eq_false (.inr hlead)
  tails := isTail_of_follows h
  short := Nat.succ_le_succ hshort
  enough := length_of_follows h
  take j := by simp [htake, follows_take h]

theorem leads_of_runeLength {a : UInt8} {rest : Bytes} {k : ℕ}
    (h : runeLength (a :: rest) = k + 1) : Leads a rest k := by
  rw [runeLength] at h
  split_ifs at h with h₁ h₂ h₃ h₄ h₅ h₆ h₇
  · obtain rfl : k = 0 := by omega
    exact ⟨isTail_eq_false (.inl h₁), by simp, by decide, Nat.zero_le _,
      fun j => by simp [runeLength, h₁]⟩
  · obtain rfl : k = 1 := by omega
    simp only [Bool.and_eq_true, decide_eq_true_eq] at h₂
    exact leads_of_follows h₃ h₂.1 (by decide) fun j => by simp [runeLength, h₁, h₂]
  · obtain rfl : k = 2 := by omega
    have hlead : 0xC2 ≤ a := by
      simp only [Bool.and_eq_true, decide_eq_true_eq] at h₄
      exact UInt8.le_trans (by decide) h₄.1
    exact leads_of_follows h₅ hlead (by decide) fun j => by simp [runeLength, h₁, h₂, h₄]
  · obtain rfl : k = 3 := by omega
    have hlead : 0xC2 ≤ a := by
      simp only [Bool.and_eq_true, decide_eq_true_eq] at h₆
      exact UInt8.le_trans (by decide) h₆.1
    exact leads_of_follows h₇ hlead (by decide) fun j => by simp [runeLength, h₁, h₂, h₄, h₆]

def Rune.Plain (r : Rune) : Prop :=
  match r with
  | .valid bs => (∃ a < 0x80, bs = [a]) ∨ ∀ b ∈ bs, 0x80 ≤ b
  | .invalid b => 0x80 ≤ b

theorem plain_of_runeLength {a : UInt8} {rest : Bytes} {k : ℕ}
    (h : runeLength (a :: rest) = k + 1) : (Rune.valid (a :: rest.take k)).Plain := by
  by_cases ha : a < 0x80
  · rw [runeLength, if_pos ha] at h
    obtain rfl : k = 0 := by omega
    exact .inl ⟨a, ha, rfl⟩
  · refine .inr fun b hb => ?_
    rcases List.mem_cons.1 hb with rfl | hb
    · exact UInt8.not_lt.1 ha
    · exact ge_of_isTail ((leads_of_runeLength h).tails b hb)

theorem plain_of_mem_runesFrom {skip : ℕ} {s : Bytes} {r : Rune} (h : r ∈ runesFrom skip s) :
    r.Plain := by
  induction s generalizing skip with
  | nil => cases skip <;> cases h
  | cons a rest ih =>
    cases skip with
    | succ skip => exact ih h
    | zero =>
      rw [runesFrom] at h
      split at h
      · next hk =>
        rcases List.mem_cons.1 h with rfl | h
        · by_contra hlt
          have ha : a < 0x80 := UInt8.not_le.1 hlt
          rw [runeLength, if_pos ha] at hk
          cases hk
        · exact ih h
      · next k hk =>
        rcases List.mem_cons.1 h with rfl | h
        · exact plain_of_runeLength hk
        · exact ih h

theorem plain_of_mem_runes {s : Bytes} {r : Rune} (h : r ∈ runes s) : r.Plain :=
  plain_of_mem_runesFrom h

/-! What comes after a valid text is read as if it came alone. -/

theorem tails_append {k : ℕ} {s : Bytes} (h : tails k s = true) (rest : Bytes) :
    k ≤ s.length ∧ tails k (s ++ rest) = true := by
  induction k generalizing s with
  | zero => exact ⟨Nat.zero_le _, by rw [tails]⟩
  | succ k ih =>
    cases s with
    | nil => cases h
    | cons b s =>
      rw [tails, Bool.and_eq_true] at h
      obtain ⟨hlen, htails⟩ := ih h.2
      refine ⟨Nat.succ_le_succ hlen, ?_⟩
      rw [List.cons_append, tails, h.1, htails]
      rfl

theorem follows_append {a : UInt8} {k : ℕ} {s : Bytes} (h : follows a k s = true) (rest : Bytes) :
    k + 1 ≤ s.length ∧ follows a k (s ++ rest) = true := by
  cases s with
  | nil => cases h
  | cons b s =>
    rw [follows, Bool.and_eq_true] at h
    obtain ⟨hlen, htails⟩ := tails_append h.2 rest
    refine ⟨Nat.succ_le_succ hlen, ?_⟩
    rw [List.cons_append, follows, h.1, htails]
    rfl

theorem runeLength_append {a : UInt8} {s : Bytes} {k : ℕ} (h : runeLength (a :: s) = k + 1)
    (rest : Bytes) : k ≤ s.length ∧ runeLength (a :: (s ++ rest)) = k + 1 := by
  rw [runeLength] at h ⊢
  split_ifs at h with h₁ h₂ h₃ h₄ h₅ h₆ h₇
  · obtain rfl : k = 0 := by omega
    exact ⟨Nat.zero_le _, by rw [if_pos h₁]⟩
  · obtain rfl : k = 1 := by omega
    obtain ⟨hlen, hfollows⟩ := follows_append h₃ rest
    exact ⟨hlen, by rw [if_neg h₁, if_pos h₂, if_pos hfollows]⟩
  · obtain rfl : k = 2 := by omega
    obtain ⟨hlen, hfollows⟩ := follows_append h₅ rest
    exact ⟨hlen, by rw [if_neg h₁, if_neg h₂, if_pos h₄, if_pos hfollows]⟩
  · obtain rfl : k = 3 := by omega
    obtain ⟨hlen, hfollows⟩ := follows_append h₇ rest
    exact ⟨hlen, by rw [if_neg h₁, if_neg h₂, if_neg h₄, if_pos h₆, if_pos hfollows]⟩

theorem runesFrom_append {skip : ℕ} {s : Bytes} (hskip : skip ≤ s.length)
    (h : (runesFrom skip s).all Rune.isValid = true) (rest : Bytes) :
    runesFrom skip (s ++ rest) = runesFrom skip s ++ runes rest := by
  induction s generalizing skip with
  | nil =>
    obtain rfl : skip = 0 := Nat.le_zero.1 hskip
    rfl
  | cons a s ih =>
    cases skip with
    | succ skip => exact ih (Nat.le_of_succ_le_succ hskip) h
    | zero =>
      rw [List.cons_append, runesFrom, runesFrom]
      rw [runesFrom] at h
      cases hk : runeLength (a :: s) with
      | zero =>
        rw [hk] at h
        cases h
      | succ k =>
        obtain ⟨hlen, hlength⟩ := runeLength_append hk rest
        rw [hk] at h
        rw [hlength]
        dsimp only
        rw [List.take_append_of_le_length hlen, ih hlen h]
        rfl

theorem valid_append {s : Bytes} (h : valid s = true) (rest : Bytes) :
    valid (s ++ rest) = valid rest := by
  have hall : (runesFrom 0 s).all Rune.isValid = true := h
  rw [valid, runes, runesFrom_append (Nat.zero_le _) hall, List.all_append, hall, Bool.true_and]
  rfl

/-! Where a valid text can be cut. -/

theorem runesFrom_eq (skip : ℕ) (s : Bytes) : runesFrom skip s = runes (s.drop skip) := by
  induction s generalizing skip with
  | nil => cases skip <;> rfl
  | cons a rest ih =>
    cases skip with
    | zero => rfl
    | succ skip => exact ih skip

theorem valid_cons_iff {a : UInt8} {rest : Bytes} : valid (a :: rest) = true ↔
    ∃ k, runeLength (a :: rest) = k + 1 ∧ valid (rest.drop k) = true := by
  rw [valid, runes, runesFrom]
  cases runeLength (a :: rest) with
  | zero => simp [Rune.isValid]
  | succ k => simp [Rune.isValid, runesFrom_eq, valid]

theorem valid_of_mem_runes {s bs : Bytes} (h : .valid bs ∈ runes s) : valid bs = true := by
  unfold runes at h
  generalize 0 = skip at h
  induction s generalizing skip with
  | nil => cases skip <;> cases h
  | cons a rest ih =>
    cases skip with
    | succ skip => exact ih skip h
    | zero =>
      rw [runesFrom] at h
      split at h
      · rcases List.mem_cons.1 h with h | h
        · cases h
        · exact ih 0 h
      · next k hk =>
        rcases List.mem_cons.1 h with h | h
        · cases h
          refine valid_cons_iff.2 ⟨k, ?_, by simp [valid, runes, runesFrom]⟩
          rw [(leads_of_runeLength hk).take k, if_pos (Nat.le_refl k)]
        · exact ih k h

theorem valid_toValidFrom (invalid : Bool) {rs : List Rune}
    (h : ∀ bs, .valid bs ∈ rs → valid bs = true) : valid (toValidFrom invalid rs) = true := by
  induction rs generalizing invalid with
  | nil => cases invalid <;> rfl
  | cons r rs ih =>
    have hrest := fun flag => ih flag fun bs hbs => h bs (List.mem_cons_of_mem r hbs)
    cases r with
    | valid bs =>
      cases invalid
      all_goals
        rw [toValidFrom, valid_append (h bs List.mem_cons_self)]
        exact hrest false
    | invalid b =>
      cases invalid with
      | true => exact hrest true
      | false =>
        rw [toValidFrom, if_neg Bool.false_ne_true, valid_append (by decide)]
        exact hrest true

theorem valid_toValidUTF8 (s : Bytes) : valid (toValidUTF8 s) = true :=
  valid_toValidFrom false fun _ => valid_of_mem_runes

theorem toValidFrom_of_valid {rs : List Rune} (h : rs.all Rune.isValid = true) :
    toValidFrom false rs = rs.flatMap Rune.source := by
  induction rs with
  | nil => rfl
  | cons r rs ih =>
    rw [List.all_cons, Bool.and_eq_true] at h
    cases r with
    | valid bs => rw [toValidFrom, List.flatMap_cons, ih h.2, Rune.source]
    | invalid b => cases h.1

theorem toValidUTF8_of_valid {s : Bytes} (h : valid s = true) : toValidUTF8 s = s :=
  (toValidFrom_of_valid h).trans (source_runesFrom 0 s)

theorem valid_take_iff {s : Bytes} (h : valid s = true) (n : ℕ) :
    valid (s.take n) = true ↔ ∀ b ∈ s[n]?, isTail b = false := by
  -- the induction is on the characters of the text
  induction hlen : s.length using Nat.strongRecOn generalizing s n with
  | _ len ih =>
  subst hlen
  cases s with
  | nil => simp [h]
  | cons a rest =>
    obtain ⟨k, hk, hrest⟩ := valid_cons_iff.1 h
    have hleads := leads_of_runeLength hk
    cases n with
    | zero => simp [valid, runes, runesFrom, hleads.lead]
    | succ n =>
      rw [List.take_succ_cons, valid_cons_iff, hleads.take n, List.getElem?_cons_succ]
      by_cases hkn : k ≤ n
      · have hshorter : (rest.drop k).length < (a :: rest).length := by
          rw [List.length_drop, List.length_cons]
          omega
        have hcut := ih _ hshorter hrest (n - k) rfl
        rw [List.getElem?_drop, Nat.add_sub_cancel' hkn] at hcut
        simp [if_pos hkn, List.drop_take, hcut]
      · -- the cut is inside the first character
        have hn : n < rest.length := Nat.lt_of_lt_of_le (Nat.lt_of_not_le hkn) hleads.enough
        have htail := hleads.tails rest[n] (List.mem_take_iff_getElem.2 ⟨n, by omega, rfl⟩)
        simp [if_neg hkn, List.getElem?_eq_getElem hn, htail]

theorem exists_lead {s : Bytes} (h : valid s = true) {n : ℕ} (hn : n < s.length) :
    ∃ m ≤ n, n ≤ m + 3 ∧ ∃ b ∈ s[m]?, isTail b = false := by
  induction hlen : s.length using Nat.strongRecOn generalizing s n with
  | _ len ih =>
  subst hlen
  cases s with
  | nil => cases hn
  | cons a rest =>
    obtain ⟨k, hk, hrest⟩ := valid_cons_iff.1 h
    have hleads := leads_of_runeLength hk
    have hshort := hleads.short
    rw [List.length_cons] at hn
    by_cases hkn : n ≤ k
    · exact ⟨0, Nat.zero_le n, by omega, a, rfl, hleads.lead⟩
    · have hbound : n - (k + 1) < (rest.drop k).length := by
        rw [List.length_drop]
        omega
      have hshorter : (rest.drop k).length < (a :: rest).length := by
        rw [List.length_drop, List.length_cons]
        omega
      obtain ⟨m, hmn, hnear, b, hb, hlead⟩ := ih _ hshorter hrest hbound rfl
      refine ⟨m + (k + 1), by omega, by omega, b, ?_, hlead⟩
      rw [List.getElem?_drop] at hb
      rwa [← Nat.add_assoc, List.getElem?_cons_succ, Nat.add_comm]

end GoScheduler.Text

import GoScheduler.Text.Utf8

/-! JSON string literals as Go's `encoding/json` writes them, and the reading of what it
writes. Every byte that belongs to no character is written as the escape of U+FFFD, so what is read
back is the text with U+FFFD in its place. -/
namespace GoScheduler.Text

def hexDigit (n : ℕ) : UInt8 := if n < 10 then UInt8.ofNat (48 + n) else UInt8.ofNat (87 + n)

def escapeUnicode (n : ℕ) : Bytes :=
  [0x5C, 0x75, hexDigit (n / 4096 % 16), hexDigit (n / 256 % 16), hexDigit (n / 16 % 16),
    hexDigit (n % 16)]

def quoteAscii (a : UInt8) : Bytes :=
  if a = 0x22 ∨ a = 0x5C then [0x5C, a]
  else if a = 0x08 then bytes "\\b"
  else if a = 0x0C then bytes "\\f"
  else if a = 0x0A then bytes "\\n"
  else if a = 0x0D then bytes "\\r"
  else if a = 0x09 then bytes "\\t"
  -- control characters, and `<`, `>` and `&`, which would matter inside HTML
  else if a < 0x20 ∨ a = 0x3C ∨ a = 0x3E ∨ a = 0x26 then escapeUnicode a.toNat
  else [a]

def quoteRune : Rune → Bytes
  | .invalid _ => escapeUnicode 0xFFFD
  | .valid [a] => quoteAscii a
  | .valid bs =>
      -- the line and paragraph separators end a line in JavaScript
      if bs = [0xE2, 0x80, 0xA8] then escapeUnicode 0x2028
      else if bs = [0xE2, 0x80, 0xA9] then escapeUnicode 0x2029
      else bs

def quote (s : Bytes) : Bytes := (runes s).flatMap quoteRune

def hexValue (c : UInt8) : Option ℕ :=
  if 48 ≤ c ∧ c ≤ 57 then some (c.toNat - 48)
  else if 97 ≤ c ∧ c ≤ 102 then some (c.toNat - 87)
  else if 65 ≤ c ∧ c ≤ 70 then some (c.toNat - 55)
  else none

def hexNumber (a b c d : UInt8) : Option ℕ := do
  return 4096 * (← hexValue a) + 256 * (← hexValue b) + 16 * (← hexValue c) + (← hexValue d)

/-- The UTF-8 form of a code point below U+10000, U+FFFD for a surrogate. -/
def encodeRune (n : ℕ) : Bytes :=
  if n < 0x80 then [UInt8.ofNat n]
  else if n < 0x800 then [UInt8.ofNat (0xC0 + n / 64), UInt8.ofNat (0x80 + n % 64)]
  else if 0xD800 ≤ n ∧ n < 0xE000 then replacement
  else [UInt8.ofNat (0xE0 + n / 4096), UInt8.ofNat (0x80 + n / 64 % 64),
    UInt8.ofNat (0x80 + n % 64)]

def unescape (e : UInt8) : Option UInt8 :=
  if e = 0x22 ∨ e = 0x5C ∨ e = 0x2F then some e
  else if e = 0x62 then some 0x08
  else if e = 0x66 then some 0x0C
  else if e = 0x6E then some 0x0A
  else if e = 0x72 then some 0x0D
  else if e = 0x74 then some 0x09
  else none

def prepend (s : Bytes) (p : Bytes × Bytes) : Bytes × Bytes := (s ++ p.1, p.2)

/-- The text of a string literal and what comes after its closing quotation mark. -/
def unquote : Bytes → Option (Bytes × Bytes)
  | [] => none
  | b :: rest =>
      if b = 0x22 then some ([], rest)
      else if b = 0x5C then match rest with
        | [] => none
        | e :: rest =>
            if e = 0x75 then match rest with
              | h₁ :: h₂ :: h₃ :: h₄ :: rest => match hexNumber h₁ h₂ h₃ h₄ with
                  | some n => (unquote rest).map (prepend (encodeRune n))
                  | none => none
              | _ => none
            else match unescape e with
              | some c => (unquote rest).map (prepend [c])
              | none => none
      else (unquote rest).map (prepend [b])

def Reads (piece s : Bytes) : Prop :=
  ∀ rest, unquote (piece ++ rest) = (unquote rest).map (prepend s)

theorem reads_nil : Reads [] [] := by
  intro rest
  cases h : unquote rest <;> simp [h, prepend]

theorem Reads.append {p q s s' : Bytes} (hp : Reads p s) (hq : Reads q s') :
    Reads (p ++ q) (s ++ s') := by
  intro rest
  rw [List.append_assoc, hp, hq]
  cases h : unquote rest <;> simp [prepend]

theorem reads_literal {b : UInt8} (hquote : b ≠ 0x22) (hslash : b ≠ 0x5C) : Reads [b] [b] := by
  intro rest
  rw [List.singleton_append, unquote.eq_def]
  simp only [if_neg hquote, if_neg hslash]

theorem reads_escape {e c : UInt8} (he : e ≠ 0x75) (hc : unescape e = some c) :
    Reads [0x5C, e] [c] := by
  intro rest
  change unquote (0x5C :: e :: rest) = _
  rw [unquote.eq_def]
  simp only [if_neg (show (0x5C : UInt8) ≠ 0x22 by decide), if_true, if_neg he, hc]

theorem reads_unicode {h₁ h₂ h₃ h₄ : UInt8} {n : ℕ} (hn : hexNumber h₁ h₂ h₃ h₄ = some n) :
    Reads [0x5C, 0x75, h₁, h₂, h₃, h₄] (encodeRune n) := by
  intro rest
  change unquote (0x5C :: 0x75 :: h₁ :: h₂ :: h₃ :: h₄ :: rest) = _
  rw [unquote.eq_def]
  simp only [if_neg (show (0x5C : UInt8) ≠ 0x22 by decide), if_true, hn]

theorem hexValue_hexDigit : ∀ n < 16, hexValue (hexDigit n) = some n := by decide

theorem reads_escapeUnicode {n : ℕ} (hn : n < 65536) : Reads (escapeUnicode n) (encodeRune n) := by
  refine reads_unicode ?_
  rw [hexNumber, hexValue_hexDigit _ (Nat.mod_lt _ (by omega)),
    hexValue_hexDigit _ (Nat.mod_lt _ (by omega)), hexValue_hexDigit _ (Nat.mod_lt _ (by omega)),
    hexValue_hexDigit _ (Nat.mod_lt _ (by omega))]
  simp only [bind, Option.bind, pure, Option.some.injEq]
  omega

theorem reads_quoteAscii {a : UInt8} (ha : a < 0x80) : Reads (quoteAscii a) [a] := by
  have hencode : encodeRune a.toNat = [a] := by
    have hlt : a.toNat < 128 := UInt8.lt_iff_toNat_lt.1 ha
    rw [encodeRune, if_pos hlt, UInt8.ofNat_toNat]
  unfold quoteAscii
  split_ifs with h₁ h₂ h₃ h₄ h₅ h₆ h₇
  · rcases h₁ with rfl | rfl
    · exact reads_escape (by decide) rfl
    · exact reads_escape (by decide) rfl
  · subst h₂
    exact reads_escape (e := 0x62) (by decide) rfl
  · subst h₃
    exact reads_escape (e := 0x66) (by decide) rfl
  · subst h₄
    exact reads_escape (e := 0x6E) (by decide) rfl
  · subst h₅
    exact reads_escape (e := 0x72) (by decide) rfl
  · subst h₆
    exact reads_escape (e := 0x74) (by decide) rfl
  · have hlt : a.toNat < 65536 := by
      have := a.toNat_lt
      omega
    have hreads := reads_escapeUnicode hlt
    rwa [hencode] at hreads
  · exact reads_literal (fun h => h₁ (.inl h)) fun h => h₁ (.inr h)

theorem reads_of_ge {bs : Bytes} (h : ∀ b ∈ bs, 0x80 ≤ b) : Reads bs bs := by
  induction bs with
  | nil => exact reads_nil
  | cons b bs ih =>
    have hb := UInt8.le_iff_toNat_le.1 (h b List.mem_cons_self)
    have hquote : b ≠ 0x22 := fun he => absurd (he ▸ hb) (by decide)
    have hslash : b ≠ 0x5C := fun he => absurd (he ▸ hb) (by decide)
    exact (reads_literal hquote hslash).append (ih fun c hc => h c (List.mem_cons_of_mem b hc))

theorem quoteAscii_of_ge {a : UInt8} (ha : 0x80 ≤ a) : quoteAscii a = [a] := by
  have hne (b : UInt8) (hb : b < 0x80) : a ≠ b := fun he => UInt8.not_lt.2 ha (he ▸ hb)
  have hlt : ¬ a < 0x20 := fun h =>
    UInt8.not_lt.2 ha (UInt8.lt_trans h (show (0x20 : UInt8) < 0x80 by decide))
  simp [quoteAscii, hne, hlt]

theorem reads_quoteRune {r : Rune} (h : r.Plain) : Reads (quoteRune r) r.replaced := by
  fun_cases quoteRune r with
  | case1 => exact reads_escapeUnicode (by omega)
  | case2 a =>
    rcases h with ⟨a', ha', he⟩ | h
    · cases he
      exact reads_quoteAscii ha'
    · rw [quoteAscii_of_ge (h a List.mem_cons_self)]
      exact reads_of_ge h
  | case3 => exact reads_escapeUnicode (by omega)
  | case4 => exact reads_escapeUnicode (by omega)
  | case5 bs h₁ =>
    rcases h with ⟨a, -, rfl⟩ | h
    · exact (h₁ a rfl).elim
    · exact reads_of_ge h

theorem unquote_quote (s rest : Bytes) :
    unquote (quote s ++ 0x22 :: rest) = some (sanitize s, rest) := by
  have hreads : ∀ rs : List Rune, (∀ r ∈ rs, r.Plain) →
      Reads (rs.flatMap quoteRune) (rs.flatMap Rune.replaced) := by
    intro rs
    induction rs with
    | nil => exact fun _ => reads_nil
    | cons r rs ih =>
      intro h
      exact (reads_quoteRune (h r List.mem_cons_self)).append
        (ih fun r' hr' => h r' (List.mem_cons_of_mem r hr'))
  rw [quote, hreads (runes s) fun r hr => plain_of_mem_runes hr]
  simp [unquote.eq_def (0x22 :: rest), prepend, sanitize]

def isPlain (b : UInt8) : Bool :=
  0x20 ≤ b && b < 0x80 && b ≠ 0x22 && b ≠ 0x5C && b ≠ 0x3C && b ≠ 0x3E && b ≠ 0x26

theorem isPlain_hexDigit : ∀ n < 16, isPlain (hexDigit n) = true := by decide

theorem lt_of_isPlain {b : UInt8} (h : isPlain b = true) : b < 0x80 := by
  simp only [isPlain, Bool.and_eq_true, decide_eq_true_eq] at h
  exact h.1.1.1.1.1.2

theorem quoteAscii_of_isPlain {a : UInt8} (h : isPlain a = true) : quoteAscii a = [a] := by
  simp only [isPlain, Bool.and_eq_true, decide_eq_true_eq] at h
  obtain ⟨⟨⟨⟨⟨⟨hspace, -⟩, hquote⟩, hslash⟩, hless⟩, hgreater⟩, hand⟩ := h
  have hcontrol : ∀ c : UInt8, c < 0x20 → a ≠ c := fun c hc heq => by
    subst heq
    exact absurd hspace (UInt8.not_le.2 hc)
  rw [quoteAscii, if_neg (by simp [hquote, hslash]), if_neg (hcontrol _ (by decide)),
    if_neg (hcontrol _ (by decide)), if_neg (hcontrol _ (by decide)),
    if_neg (hcontrol _ (by decide)), if_neg (hcontrol _ (by decide)),
    if_neg (by simp [hless, hgreater, hand, UInt8.not_lt.2 hspace])]

theorem quote_of_isPlain {s : Bytes} (h : s.all isPlain = true) : quote s = s := by
  induction s with
  | nil => rfl
  | cons a s ih =>
    obtain ⟨ha, hs⟩ := Bool.and_eq_true_iff.1 ((List.all_cons).symm.trans h)
    rw [quote, runes_ascii_cons (lt_of_isPlain ha), List.flatMap_cons]
    exact congrArg₂ (· ++ ·) (quoteAscii_of_isPlain ha) (ih hs)

theorem unquote_of_isPlain {s : Bytes} (h : s.all isPlain = true) (rest : Bytes) :
    unquote (s ++ 0x22 :: rest) = some (s, rest) := by
  have hascii : ∀ b ∈ s, b < 0x80 := fun b hb => lt_of_isPlain (List.all_eq_true.1 h b hb)
  have hread := unquote_quote s rest
  rwa [quote_of_isPlain h, sanitize_of_valid (valid_of_ascii hascii)] at hread

end GoScheduler.Text

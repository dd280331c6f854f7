import Mathlib.Algebra.Order.Group.Int
import Mathlib.Data.List.Pairwise

/-! A counter of attempts over windows of a fixed length: the first attempt starts a window, the
window grants a limited number of them, and it may be dropped or replaced once it is over. Two
windows of one history start at least that length apart, so a stretch of time of that length
meets at most two of them. -/
namespace GoScheduler.FixedWindow

structure Window where
  started : Int
  attempts : ℕ
deriving DecidableEq

/-- What may become of the window at time `t`, and whether an attempt is granted. -/
inductive Step (length : Int) (limit : ℕ) (t : Int) : Option Window → Option Window → Bool → Prop
  | idle (w : Option Window) : Step length limit t w w false
  | grant (w : Window) (hopen : t - w.started < length) (hroom : w.attempts < limit) :
      Step length limit t (some w) (some ⟨w.started, w.attempts + 1⟩) true
  | start (w : Option Window) (hover : ∀ x ∈ w, length ≤ t - x.started) :
      Step length limit t w (some ⟨t, 1⟩) true
  | drop (w : Window) (hover : length ≤ t - w.started) : Step length limit t (some w) none false

structure Grant where
  start : Int
  time : Int
deriving DecidableEq

structure Account (length : Int) (limit : ℕ) (now : Int) (w : Option Window) (starts : List Int)
    (grants : List Grant) : Prop where
  apart : starts.Pairwise fun later earlier => earlier + length ≤ later
  inside : ∀ g ∈ grants, g.start ∈ starts ∧ g.start ≤ g.time ∧ g.time < g.start + length
  limited : ∀ s, grants.countP (·.start = s) ≤ limit
  current : ∀ x ∈ w, starts.head? = some x.started ∧ x.started ≤ now ∧
    grants.countP (·.start = x.started) ≤ x.attempts
  ended : w = none → ∀ s ∈ starts, s + length ≤ now

variable {length : Int} {limit : ℕ} {now t : Int} {w w' : Option Window} {starts : List Int}
  {grants : List Grant} {granted : Bool}

theorem Step.origin {y : Window} (h : Step length limit t w (some y) granted) :
    y.started = t ∨ ∃ x ∈ w, x.started = y.started := by
  cases h with
  | idle => exact .inr ⟨y, rfl, rfl⟩
  | grant x hopen hroom => exact .inr ⟨x, rfl, rfl⟩
  | start _ hover => exact .inl rfl

theorem Step.ended {x : Window} (h : Step length limit t (some x) w' granted)
    (hgone : ∀ y ∈ w', y.started ≠ x.started) : length ≤ t - x.started := by
  cases h with
  | idle => exact absurd rfl (hgone x rfl)
  | grant _ hopen hroom => exact absurd rfl (hgone ⟨x.started, x.attempts + 1⟩ rfl)
  | start _ hover => exact hover x rfl
  | drop _ hover => exact hover

namespace Account

theorem init (hnow : ∀ x ∈ w, x.started ≤ now) :
    Account length limit now w (w.map Window.started).toList [] where
  apart := by cases w <;> simp
  inside := by simp
  limited := by simp
  current x hx := by
    cases hx
    exact ⟨rfl, hnow x rfl, Nat.zero_le _⟩
  ended hw := by simp [hw]

theorem over_of_current (h : Account length limit now w starts grants) (ht : now ≤ t)
    (hover : ∀ x ∈ w, length ≤ t - x.started) : ∀ s ∈ starts, s + length ≤ t := by
  intro s hs
  cases w with
  | none => exact (h.ended rfl s hs).trans ht
  | some x =>
    obtain ⟨hhead, hle, -⟩ := h.current x rfl
    cases starts with
    | nil => cases hs
    | cons s' earlier =>
      cases hhead
      have hcurrent := hover x rfl
      rcases List.mem_cons.1 hs with rfl | hs
      · omega
      · have hearlier := (List.pairwise_cons.1 h.apart).1 s hs
        omega

theorem idle (h : Account length limit now w starts grants) (ht : now ≤ t) :
    Account length limit t w starts grants where
  apart := h.apart
  inside := h.inside
  limited := h.limited
  current x hx := by
    obtain ⟨hhead, hle, hcount⟩ := h.current x hx
    exact ⟨hhead, hle.trans ht, hcount⟩
  ended hw s hs := (h.ended hw s hs).trans ht

theorem grant {x : Window} (h : Account length limit now (some x) starts grants) (ht : now ≤ t)
    (hopen : t - x.started < length) (hroom : x.attempts < limit) :
    Account length limit t (some ⟨x.started, x.attempts + 1⟩) starts
      (⟨x.started, t⟩ :: grants) := by
  obtain ⟨hhead, hle, hcount⟩ := h.current x rfl
  refine ⟨h.apart, fun g hg => ?_, fun s => ?_, ?_, nofun⟩
  · rcases List.mem_cons.1 hg with rfl | hg
    · exact ⟨List.mem_of_mem_head? hhead, hle.trans ht, by dsimp only; omega⟩
    · exact h.inside g hg
  · by_cases hs : x.started = s
    · subst hs
      rw [List.countP_cons_of_pos (by simp)]
      omega
    · rw [List.countP_cons_of_neg (by simpa using hs)]
      exact h.limited s
  · rintro _ ⟨⟩
    refine ⟨hhead, hle.trans ht, ?_⟩
    rw [List.countP_cons_of_pos (by simp)]
    exact Nat.succ_le_succ hcount

theorem start (h : Account length limit now w starts grants) (hlength : 0 < length)
    (hlimit : 0 < limit) (ht : now ≤ t) (hover : ∀ x ∈ w, length ≤ t - x.started) :
    Account length limit t (some ⟨t, 1⟩) (t :: starts) (⟨t, t⟩ :: grants) := by
  have hearlier := h.over_of_current ht hover
  have hnone : grants.countP (·.start = t) = 0 := by
    rw [List.countP_eq_zero]
    intro g hg hstart
    have hend := hearlier _ (h.inside g hg).1
    rw [of_decide_eq_true hstart] at hend
    omega
  refine ⟨List.pairwise_cons.2 ⟨hearlier, h.apart⟩, fun g hg => ?_, fun s => ?_, ?_, nofun⟩
  · rcases List.mem_cons.1 hg with rfl | hg
    · exact ⟨List.mem_cons_self, le_rfl, by dsimp only; omega⟩
    · obtain ⟨hmem, htime⟩ := h.inside g hg
      exact ⟨List.mem_cons_of_mem t hmem, htime⟩
  · by_cases hs : t = s
    · subst hs
      rw [List.countP_cons_of_pos (by simp), hnone]
      exact hlimit
    · rw [List.countP_cons_of_neg (by simpa using hs)]
      exact h.limited s
  · rintro _ ⟨⟩
    refine ⟨rfl, le_rfl, ?_⟩
    rw [List.countP_cons_of_pos (by simp), hnone]

theorem drop (h : Account length limit now w starts grants) (ht : now ≤ t)
    (hover : ∀ x ∈ w, length ≤ t - x.started) : Account length limit t none starts grants where
  apart := h.apart
  inside := h.inside
  limited := h.limited
  current := nofun
  ended _ := h.over_of_current ht hover

theorem step (h : Account length limit now w starts grants) (hlength : 0 < length)
    (hlimit : 0 < limit) (ht : now ≤ t) (hstep : Step length limit t w w' granted) :
    ∃ starts' grants', Account length limit t w' starts' grants' ∧
      (∀ s ∈ starts, s ∈ starts') ∧
      grants'.map Grant.time = (if granted then [t] else []) ++ grants.map Grant.time := by
  cases hstep with
  | idle => exact ⟨_, _, h.idle ht, fun _ hs => hs, rfl⟩
  | grant x hopen hroom => exact ⟨_, _, h.grant ht hopen hroom, fun _ hs => hs, rfl⟩
  | start _ hover =>
    exact ⟨_, _, h.start hlength hlimit ht hover, fun _ hs => List.mem_cons_of_mem t hs, rfl⟩
  | drop x hover =>
    have hover : ∀ y ∈ some x, length ≤ t - y.started := by
      rintro _ ⟨⟩
      exact hover
    exact ⟨_, _, h.drop ht hover, fun _ hs => hs, rfl⟩

theorem eq_or_apart (h : Account length limit now w starts grants) {s s' : Int} (hs : s ∈ starts)
    (hs' : s' ∈ starts) : s = s' ∨ s + length ≤ s' ∨ s' + length ≤ s := by
  let Apart (a b : Int) : Prop := a + length ≤ b ∨ b + length ≤ a
  have hsymm : Std.Symm Apart := ⟨fun _ _ hab => hab.symm⟩
  have hpairs : starts.Pairwise Apart := h.apart.imp fun hab => .inr hab
  by_cases heq : s = s'
  · exact .inl heq
  · exact .inr (hpairs.forall hs hs' heq)

theorem countP_window_le (h : Account length limit now w starts grants) {s : Int}
    (hs : s ∈ starts) :
    (grants.map Grant.time).countP (fun t => s ≤ t ∧ t < s + length) ≤ limit := by
  rw [List.countP_map]
  refine le_trans (List.countP_mono_left fun g hg hin => ?_) (h.limited s)
  obtain ⟨hstart, hle, hlt⟩ := h.inside g hg
  have hin := of_decide_eq_true hin
  have happart := h.eq_or_apart hstart hs
  simp only [decide_eq_true_eq]
  omega

theorem countP_or_le {α : Type} (p q : α → Bool) (l : List α) :
    l.countP (fun a => p a || q a) ≤ l.countP p + l.countP q := by
  induction l with
  | nil => simp
  | cons a l ih =>
    simp only [List.countP_cons]
    cases p a <;> cases q a <;> simp <;> omega

theorem countP_le_two_mul (h : Account length limit now w starts grants) {p : Int → Bool}
    (hp : ∀ t t', p t = true → p t' = true → t - t' < length) :
    (grants.map Grant.time).countP p ≤ 2 * limit := by
  rw [List.countP_map]
  by_cases hone : ∃ s, ∀ g ∈ grants, p g.time = true → g.start = s
  · obtain ⟨s, hs⟩ := hone
    have hle := List.countP_mono_left (q := fun g : Grant => g.start = s) fun g hg hin =>
      decide_eq_true (hs g hg hin)
    have hlimited := h.limited s
    exact (hle.trans hlimited).trans (by omega)
  · -- two windows have such times, and a third one would be too far from one of them
    simp only [not_exists, not_forall] at hone
    obtain ⟨g₁, hg₁, hp₁, -⟩ := hone 0
    obtain ⟨g₂, hg₂, hp₂, hne⟩ := hone g₁.start
    obtain ⟨hs₁, hle₁, hlt₁⟩ := h.inside g₁ hg₁
    obtain ⟨hs₂, hle₂, hlt₂⟩ := h.inside g₂ hg₂
    have hboth := List.countP_mono_left (l := grants) (p := p ∘ Grant.time)
      (q := fun g => decide (g.start = g₁.start) || decide (g.start = g₂.start)) fun g hg hin => by
        obtain ⟨hs, hle, hlt⟩ := h.inside g hg
        have h₁ := h.eq_or_apart hs hs₁
        have h₂ := h.eq_or_apart hs hs₂
        have h₁₂ := h.eq_or_apart hs₁ hs₂
        have hnear₁ := hp _ _ hin hp₁
        have hnear₂ := hp _ _ hin hp₂
        have hback₁ := hp _ _ hp₁ hin
        have hback₂ := hp _ _ hp₂ hin
        have hnear₁₂ := hp _ _ hp₁ hp₂
        have hback₁₂ := hp _ _ hp₂ hp₁
        simp only [Bool.or_eq_true, decide_eq_true_eq]
        omega
    have hsum := countP_or_le (fun g : Grant => decide (g.start = g₁.start))
      (fun g => decide (g.start = g₂.start)) grants
    have hlimited₁ := h.limited g₁.start
    have hlimited₂ := h.limited g₂.start
    omega

end Account

end GoScheduler.FixedWindow

import GoScheduler.ReadCommitted.Triples

/-! Judgements on programs that follow their structure: what is shown once of every program
built from some parts holds for each judgement that holds of the parts. The writes a program
may make and the assertions it keeps under a discipline are two such judgements. -/
namespace GoScheduler.ReadCommitted

structure Judgement (K : Type) (V : K → Type) (E : Type) where
  holds : {α : Type} → Program K V E α → (α → Prop) → Prop
  pure : ∀ {α : Type} {a : α} {S : α → Prop}, S a → holds (Pure.pure a) S
  fail : ∀ {α : Type} {e : E} {S : α → Prop}, holds (.fail e) S
  bind : ∀ {α β : Type} {p : Program K V E α} {f : α → Program K V E β} {S : α → Prop}
    {S' : β → Prop}, holds p S → (∀ a, S a → holds (f a) S') → holds (p >>= f) S'
  weaken : ∀ {α : Type} {p : Program K V E α} {S S' : α → Prop}, holds p S → (∀ a, S a → S' a) →
    holds p S'

variable {K : Type} {V : K → Type} {E γ σ : Type}

namespace Judgement

variable (J : Judgement K V E)

theorem when {c : Prop} [Decidable c] {p : Program K V E Unit}
    (hp : c → J.holds p fun _ => True) : J.holds (Program.when c p) fun _ => True := by
  unfold Program.when
  split
  · next h => exact hp h
  · exact J.pure trivial

theorem foldEach {S : σ → Prop} {body : σ → γ → Program K V E σ} {xs : List γ} {acc : σ}
    (hacc : S acc) (hbody : ∀ acc, ∀ x ∈ xs, S acc → J.holds (body acc x) S) :
    J.holds (Program.foldEach xs acc body) S := by
  induction xs generalizing acc with
  | nil => exact J.pure hacc
  | cons x xs ih =>
    refine J.bind (hbody acc x List.mem_cons_self hacc) fun acc' h => ih h ?_
    exact fun acc y hy => hbody acc y (List.mem_cons_of_mem _ hy)

theorem forEach {body : γ → Program K V E Unit} {xs : List γ}
    (hbody : ∀ x ∈ xs, J.holds (body x) fun _ => True) :
    J.holds (Program.forEach xs body) fun _ => True :=
  J.foldEach trivial fun _ x hx _ => hbody x hx

variable [DecidableEq K]

def effect (W : Database K V → Write V → Prop) : Judgement K V E where
  holds := fun p S => p.Effect W S
  pure := .pure
  fail := .fail
  bind := .bind
  weaken := .weaken

def keeps {T : Type} (D : Discipline T K V) (t : T) (A : Overlay V → Database K V → Prop) :
    Judgement K V E where
  holds := fun p S => D.Triple t A p fun a o d => A o d ∧ S a
  pure := fun h => .pure fun _ _ _ _ hA => ⟨hA, h⟩
  fail := .fail
  bind := fun hp hf => .bind hp fun a o d hinv ha h => hf a h.2 o d hinv ha h.1
  weaken := fun hp h => .weaken hp fun a _ _ _ _ hA => ⟨hA.1, h a hA.2⟩

end Judgement

end GoScheduler.ReadCommitted

import Glia.Kit.Wire

/-! Runs that may stop the process: reads past a buffer's end, sums past the word. -/
namespace Glia.Kit

/-- A run stops the process (`none`), fails, or gives a value. -/
abbrev Attempt (ε α : Type) := ExceptT ε Option α

namespace Attempt
variable {ε α β : Type}

def stop : Attempt ε α := ExceptT.mk none

def wordLimit : Nat := 2 ^ 64

def index (l : List α) (start stop_ : Nat) : Attempt ε (List α) :=
  if start ≤ stop_ ∧ stop_ ≤ l.length then pure (Wire.slice l start (stop_ - start)) else stop

def plus (a b : Nat) : Attempt ε Nat := if a + b < wordLimit then pure (a + b) else stop

def minus (a b : Nat) : Attempt ε Nat := if b ≤ a then pure (a - b) else stop

/-- A copy into a buffer of `n` items; of any other length it stops. -/
def exactly (l : List α) (n : Nat) : Attempt ε (List α) := if l.length = n then pure l else stop

def Ends (x : Attempt ε α) (P : α → Prop) : Prop :=
  ∃ out : Except ε α, x.run = some out ∧ ∀ a, out = .ok a → P a

variable {P P' : α → Prop} {Q : β → Prop} {x : Attempt ε α}

theorem Ends.pure {a : α} (held : P a) : Ends (pure a : Attempt ε α) P :=
  ⟨.ok a, rfl, fun _ same => Except.ok.inj same ▸ held⟩

theorem Ends.throw (e : ε) : Ends (throw e : Attempt ε α) P :=
  ⟨.error e, rfl, fun _ same => by cases same⟩

theorem Ends.bind {f : α → Attempt ε β} (first : Ends x P) (rest : ∀ a, P a → Ends (f a) Q) :
    Ends (x >>= f) Q := by
  obtain ⟨out, ran, held⟩ := first
  cases out with
  | error e =>
    refine ⟨.error e, ?_, fun _ same => by cases same⟩
    rw [ExceptT.run_bind, ran]
    rfl
  | ok a =>
    obtain ⟨out', ran', held'⟩ := rest a (held a rfl)
    refine ⟨out', ?_, held'⟩
    rw [ExceptT.run_bind, ran]
    exact ran'

theorem Ends.mono (ends : Ends x P) (weaker : ∀ a, P a → P' a) : Ends x P' := by
  obtain ⟨out, ran, held⟩ := ends
  exact ⟨out, ran, fun a same => weaker a (held a same)⟩

theorem Ends.index {l : List α} {start stop_ : Nat} (ordered : start ≤ stop_)
    (inside : stop_ ≤ l.length) :
    Ends (index l start stop_ : Attempt ε (List α))
      fun part => part = Wire.slice l start (stop_ - start) := by
  rw [Attempt.index, if_pos ⟨ordered, inside⟩]
  exact .pure rfl

theorem Ends.plus {a b : Nat} (fits : a + b < wordLimit) :
    Ends (plus a b : Attempt ε Nat) fun s => s = a + b := by
  rw [Attempt.plus, if_pos fits]
  exact .pure rfl

theorem Ends.minus {a b : Nat} (le : b ≤ a) : Ends (minus a b : Attempt ε Nat) fun d => d = a - b := by
  rw [Attempt.minus, if_pos le]
  exact .pure rfl

theorem Ends.exactly {l : List α} {n : Nat} (long : l.length = n) :
    Ends (exactly l n : Attempt ε (List α)) fun copy => copy = l := by
  rw [Attempt.exactly, if_pos long]
  exact .pure rfl

end Attempt

end Glia.Kit

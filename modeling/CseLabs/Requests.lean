import Mathlib.Data.List.Basic

namespace CseLabs

variable {σ ε : Type*}

-- A handler goes on with its own events until it has come to its end.
inductive Settles (step : σ → ε → Option σ) (serves : ε → Prop) (ended : σ → Prop) : σ → σ → Prop
  | done {state : σ} (hended : ended state) : Settles step serves ended state state
  | more {state mid final : σ} {event : ε} (hopen : ¬ ended state) (hserves : serves event)
      (hstep : step state event = some mid) (hrest : Settles step serves ended mid final) :
      Settles step serves ended state final

-- Requests that are handled one after another. `serves request` are the events of the handler
-- of a request.
inductive Handles (step : σ → ε → Option σ) (serves : ε → ε → Prop) (ended : ε → σ → Prop) :
    σ → List ε → σ → Prop
  | nil (state : σ) : Handles step serves ended state [] state
  | cons {state mid after final : σ} {request : ε} {rest : List ε} (hstep : step state request = some mid)
      (hsettles : Settles step (serves request) (ended request) mid after)
      (hrest : Handles step serves ended after rest final) :
      Handles step serves ended state (request :: rest) final

-- At most one event of a handler can happen next.
def Sequential (step : σ → ε → Option σ) (serves : ε → Prop) (ended : σ → Prop) : Prop :=
  ∀ state left right, ¬ ended state → serves left → serves right →
    (step state left).isSome = true → (step state right).isSome = true → left = right

variable {step : σ → ε → Option σ}

theorem Settles.ends {serves : ε → Prop} {ended : σ → Prop} {state final : σ}
    (h : Settles step serves ended state final) : ended final := by
  induction h with
  | done hended => exact hended
  | more _ _ _ _ ih => exact ih

theorem Settles.unique {serves : ε → Prop} {ended : σ → Prop} (hseq : Sequential step serves ended)
    {state left right : σ} (hleft : Settles step serves ended state left)
    (hright : Settles step serves ended state right) : left = right := by
  induction hleft with
  | done hended =>
      cases hright with
      | done => rfl
      | more hopen => exact absurd hended hopen
  | more hopen hserves hstep _ ih =>
      cases hright with
      | done hended => exact absurd hended hopen
      | more _ hserves' hstep' hrest' =>
          have hsame := hseq _ _ _ hopen hserves hserves' (by simp [hstep]) (by simp [hstep'])
          subst hsame
          rw [hstep] at hstep'
          cases hstep'
          exact ih hrest'

variable {serves : ε → ε → Prop} {ended : ε → σ → Prop}

theorem Handles.unique (hseq : ∀ request, Sequential step (serves request) (ended request))
    {state left right : σ} {requests : List ε} (hleft : Handles step serves ended state requests left)
    (hright : Handles step serves ended state requests right) : left = right := by
  induction hleft with
  | nil =>
      cases hright
      rfl
  | @cons _ _ _ _ request _ hstep hsettles _ ih =>
      cases hright with
      | cons hstep' hsettles' hrest' =>
          rw [hstep] at hstep'
          cases hstep'
          cases hsettles.unique (hseq request) hsettles'
          exact ih hrest'

theorem Handles.append {state mid final : σ} {first second : List ε}
    (hfirst : Handles step serves ended state first mid)
    (hsecond : Handles step serves ended mid second final) :
    Handles step serves ended state (first ++ second) final := by
  induction hfirst with
  | nil => exact hsecond
  | cons hstep hsettles _ ih => exact .cons hstep hsettles (ih hsecond)

theorem Handles.single {state mid final : σ} {request : ε} (hstep : step state request = some mid)
    (hsettles : Settles step (serves request) (ended request) mid final) :
    Handles step serves ended state [request] final :=
  .cons hstep hsettles (.nil final)

end CseLabs

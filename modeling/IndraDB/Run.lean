import Mathlib.Logic.Basic

/-! Runs of a labelled transition system given by a partial step function,
and the induction principle over them that the traversal and the bulk insert
share: an invariant of the events so far and the current state that holds at
the start and that every enabled step keeps holds along every run. -/
namespace IndraDB

variable {σ ε : Type} (step : σ → ε → Option σ)

/-- The state after the events of `tr`, one `step` each, when all are enabled. -/
def runEvents (s : σ) : List ε → Option σ
  | [] => some s
  | e :: tr => (step s e).bind fun s' => runEvents s' tr

/-- An invariant that every step keeps holds after any further events. -/
theorem runEvents_preserves (I : List ε → σ → Prop)
    (hStep : ∀ tr s e s', I tr s → step s e = some s' → I (tr ++ [e]) s') :
    ∀ (tr : List ε) {tr' s s'}, I tr s → runEvents step s tr' = some s' → I (tr ++ tr') s' := by
  intro tr tr'
  induction tr' generalizing tr with
  | nil => intro s s' h hr; cases hr; simpa using h
  | cons e tr' ih =>
      intro s s' h hr
      cases hs : step s e with
      | none => simp [runEvents, hs] at hr
      | some s₁ =>
          simp only [runEvents, hs, Option.some_bind] at hr
          simpa using ih (tr ++ [e]) (hStep tr s e s₁ h hs) hr

/-- The induction principle of reachability from `s₀`. -/
theorem runEvents_induction (I : List ε → σ → Prop) {s₀ : σ} (hInit : I [] s₀)
    (hStep : ∀ tr s e s', I tr s → step s e = some s' → I (tr ++ [e]) s')
    {tr : List ε} {s : σ} (h : runEvents step s₀ tr = some s) : I tr s := by
  simpa using runEvents_preserves step I hStep [] hInit h

end IndraDB

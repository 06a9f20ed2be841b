/-
Oxiscale/Runs.lean

Runs of step functions, for any state and any alphabet of steps.

A *partial* step function `σ → ℓ → Option σ` describes concurrent systems: a
label says who moves, the step is `none` where that move is not enabled, and
a list of labels is one interleaving.  `exec` runs such a list, `Guarded`
says that every step of it was taken in a state allowing it, and the rules are
the invariant rule (`exec_invariant`), the purge rule (`exec_purge`): a run of
a big system becomes, with the labels of the rest erased, a run of a small
one; and the refinement rule (`exec_refines`), for labels that stand for
other labels or for nothing.

A *total* step function with output `σ → ι → ω × σ` describes a sequence of
calls.  `outputs`, `final` and `history` run it; the rules are an invariant rule for
states with the history that led there (`history_invariant`), one for
sequences whose outputs are all good (`final_of_outputs`), equality of outputs
under a bisimulation (`outputs_bisim`), and purge rules for the state at the end
of a sequence whose calls are all allowed (`final_purge`) and for the outputs
of the calls that are kept (`history_purge`).
-/
import Mathlib.Data.List.Induction

namespace Runs

/-! ### Interleavings of a partial step function -/

section Interleavings

variable {σ τ ℓ : Type*}

/-- Take the steps of a list one after another. -/
def exec (step : σ → ℓ → Option σ) : σ → List ℓ → Option σ
  | s, [] => some s
  | s, x :: xs => (step s x).bind fun t => exec step t xs

/-- Every step of the list is taken in a state that allows it. -/
def Guarded (step : σ → ℓ → Option σ) (ok : σ → ℓ → Prop) : σ → List ℓ → Prop
  | _, [] => True
  | s, x :: xs => ok s x ∧ ∀ t ∈ step s x, Guarded step ok t xs

variable {step : σ → ℓ → Option σ} {step' : τ → ℓ → Option τ}
variable {ok : σ → ℓ → Prop} {s s' t : σ} {x : ℓ} {xs ys : List ℓ}

theorem exec_cons : exec step s (x :: xs) = (step s x).bind fun t => exec step t xs := rfl

theorem exec_cons_some : exec step s (x :: xs) = some t ↔
    ∃ r, step s x = some r ∧ exec step r xs = some t := by
  rw [exec_cons, Option.bind_eq_some_iff]

/-- A run goes on where the first one has ended. -/
theorem exec_append (hrun : exec step s xs = some t) (hrun' : exec step t ys = some s') :
    exec step s (xs ++ ys) = some s' := by
  induction xs generalizing s with
  | nil =>
      obtain rfl := Option.some.inj hrun
      exact hrun'
  | cons x xs ih =>
      obtain ⟨r, hr, hrest⟩ := exec_cons_some.mp hrun
      exact exec_cons_some.mpr ⟨r, hr, ih hrest⟩

theorem exec_snoc (hrun : exec step s xs = some t) (hstep : step t x = some s') :
    exec step s (xs ++ [x]) = some s' :=
  exec_append hrun (exec_cons_some.mpr ⟨s', hstep, rfl⟩)

/-- A guarded run with a permitted step before it. -/
theorem Guarded.cons (hok : ok s x) (hstep : step s x = some t)
    (h : Guarded step ok t xs) : Guarded step ok s (x :: xs) :=
  ⟨hok, fun r hr => by
    obtain rfl := Option.some.inj (hstep.symm.trans hr)
    exact h⟩

/-- A guard that holds always. -/
theorem Guarded.of_forall (h : ∀ s x, ok s x) : Guarded step ok s xs := by
  induction xs generalizing s with
  | nil => trivial
  | cons x xs ih => exact ⟨h s x, fun _ _ => ih⟩

/-- Where the guard only looks at the label. -/
theorem Guarded.of_mem {p : ℓ → Prop} (h : ∀ x ∈ xs, p x) :
    Guarded step (fun _ x => p x) s xs := by
  induction xs generalizing s with
  | nil => trivial
  | cons x xs ih =>
      rw [List.forall_mem_cons] at h
      exact ⟨h.1, fun _ _ => ih h.2⟩

theorem Guarded.left (h : Guarded step ok s (xs ++ ys)) : Guarded step ok s xs := by
  induction xs generalizing s with
  | nil => trivial
  | cons x xs ih => exact ⟨h.1, fun r hr => ih (h.2 r hr)⟩

theorem Guarded.right (h : Guarded step ok s (xs ++ ys)) (hrun : exec step s xs = some t) :
    Guarded step ok t ys := by
  induction xs generalizing s with
  | nil =>
      obtain rfl := Option.some.inj hrun
      exact h
  | cons x xs ih =>
      obtain ⟨r, hr, hrest⟩ := exec_cons_some.mp hrun
      exact ih (h.2 r hr) hrest

/-- **Invariant rule.**  What each allowed step preserves holds at the end of
every guarded run. -/
theorem exec_invariant {P : σ → Prop}
    (hstep : ∀ s x t, P s → ok s x → step s x = some t → P t)
    (hs : P s) (hok : Guarded step ok s xs) (hrun : exec step s xs = some t) : P t := by
  induction xs generalizing s with
  | nil =>
      obtain rfl := Option.some.inj hrun
      exact hs
  | cons x xs ih =>
      obtain ⟨r, hr, hrest⟩ := exec_cons_some.mp hrun
      exact ih (hstep s x r hs hok.1 hr) (hok.2 r hr) hrest

/-- Along a run, a guard may be replaced by what it implies in the states that an
invariant describes. -/
theorem Guarded.of_invariant {P : σ → Prop} {ok' : σ → ℓ → Prop}
    (hstep : ∀ s x t, P s → ok s x → step s x = some t → ok' s x ∧ P t)
    (hs : P s) (hok : Guarded step ok s xs) (hrun : exec step s xs = some t) :
    Guarded step ok' s xs := by
  induction xs generalizing s with
  | nil => trivial
  | cons x xs ih =>
      obtain ⟨r, hr, hrest⟩ := exec_cons_some.mp hrun
      obtain ⟨hx, hP⟩ := hstep s x r hs hok.1 hr
      exact .cons hx hr (ih hP (hok.2 r hr) hrest)

/-- **Purge rule.**  If the steps on kept labels are matched by the small
system and the steps on the other labels do not change what relates the two,
then the small system runs the kept labels alone. -/
theorem exec_purge {R : σ → τ → Prop} (keep : ℓ → Bool)
    (hkeep : ∀ s u x t, R s u → keep x = true → step s x = some t →
      ∃ v, step' u x = some v ∧ R t v)
    (hdrop : ∀ s u x t, R s u → keep x = false → step s x = some t → R t u)
    {u : τ} (hR : R s u) (hrun : exec step s xs = some t) :
    ∃ v, exec step' u (xs.filter keep) = some v ∧ R t v := by
  induction xs generalizing s u with
  | nil =>
      obtain rfl := Option.some.inj hrun
      exact ⟨u, rfl, hR⟩
  | cons x xs ih =>
      obtain ⟨r, hr, hrest⟩ := exec_cons_some.mp hrun
      rcases hx : keep x with - | -
      · rw [List.filter_cons_of_neg (by simp [hx])]
        exact ih (hdrop s u x r hR hx hr) hrest
      · obtain ⟨v, hv, hRv⟩ := hkeep s u x r hR hx hr
        obtain ⟨w, hw, hRw⟩ := ih hRv hrest
        rw [List.filter_cons_of_pos hx]
        exact ⟨w, exec_cons_some.mpr ⟨v, hv, hw⟩, hRw⟩

/-- **Refinement rule.**  If every step is matched by the abstract step that
its label stands for, or by no step at all, then every run is matched by the
run of the abstract labels. -/
theorem exec_refines {ℓ' : Type*} {step' : τ → ℓ' → Option τ} {R : σ → τ → Prop}
    (abs : ℓ → Option ℓ')
    (hstep : ∀ s u x t, R s u → step s x = some t →
      ∃ v, exec step' u (abs x).toList = some v ∧ R t v)
    {u : τ} (hR : R s u) (hrun : exec step s xs = some t) :
    ∃ v, exec step' u (xs.filterMap abs) = some v ∧ R t v := by
  induction xs generalizing s u with
  | nil =>
      obtain rfl := Option.some.inj hrun
      exact ⟨u, rfl, hR⟩
  | cons x xs ih =>
      obtain ⟨r, hr, hrest⟩ := exec_cons_some.mp hrun
      obtain ⟨v, hv, hRv⟩ := hstep s u x r hR hr
      obtain ⟨w, hw, hRw⟩ := ih hRv hrest
      refine ⟨w, ?_, hRw⟩
      rcases hx : abs x with - | y
      · rw [List.filterMap_cons_none hx]
        rw [hx] at hv
        obtain rfl := Option.some.inj hv
        exact hw
      · rw [List.filterMap_cons_some hx]
        rw [hx] at hv
        exact exec_append hv hw

end Interleavings

/-! ### Sequences of calls of a total step function -/

section Calls

variable {σ τ ι ω : Type*}

/-- The outputs of a sequence of calls, in order. -/
def outputs (step : σ → ι → ω × σ) : σ → List ι → List ω
  | _, [] => []
  | s, x :: xs => (step s x).1 :: outputs step (step s x).2 xs

/-- The state after a sequence of calls. -/
def final (step : σ → ι → ω × σ) : σ → List ι → σ
  | s, [] => s
  | s, x :: xs => final step (step s x).2 xs

/-- The calls with their outputs, newest first. -/
def history (step : σ → ι → ω × σ) (s : σ) (xs : List ι) : List (ι × ω) :=
  (xs.zip (outputs step s xs)).reverse

variable {step : σ → ι → ω × σ} {step' : τ → ι → ω × τ} {s : σ} {x : ι} {xs ys : List ι}

@[simp] theorem final_nil : final step s [] = s := rfl

@[simp] theorem final_cons : final step s (x :: xs) = final step (step s x).2 xs := rfl

@[simp] theorem outputs_nil : outputs step s [] = [] := rfl

@[simp] theorem outputs_cons :
    outputs step s (x :: xs) = (step s x).1 :: outputs step (step s x).2 xs := rfl

@[simp] theorem length_outputs : (outputs step s xs).length = xs.length := by
  induction xs generalizing s with
  | nil => rfl
  | cons x xs ih => exact congrArg _ ih

/-- A history goes on where the first one has ended. -/
theorem final_append : final step s (xs ++ ys) = final step (final step s xs) ys := by
  induction xs generalizing s with
  | nil => rfl
  | cons x xs ih => exact ih

theorem outputs_append : outputs step s (xs ++ ys) =
    outputs step s xs ++ outputs step (final step s xs) ys := by
  induction xs generalizing s with
  | nil => rfl
  | cons x xs ih => exact congrArg _ ih

theorem final_snoc : final step s (xs ++ [x]) = (step (final step s xs) x).2 := by
  rw [final_append]
  rfl

/-- The newest entry comes first. -/
theorem history_snoc : history step s (xs ++ [x]) =
    (x, (step (final step s xs) x).1) :: history step s xs := by
  rw [history, outputs_append, List.zip_append length_outputs.symm, List.reverse_append]
  rfl

theorem mem_of_mem_history {e : ι × ω} (he : e ∈ history step s xs) : e.1 ∈ xs :=
  (List.of_mem_zip (List.mem_reverse.mp he)).1

/-- **History rule.**  What relates a state to the calls and outputs that led
to it, and is kept by one more call, holds after every sequence of calls. -/
theorem history_invariant {P : σ → List (ι × ω) → Prop}
    (hstep : ∀ s h x, P s h → P (step s x).2 ((x, (step s x).1) :: h))
    (hs : P s []) : P (final step s xs) (history step s xs) := by
  induction xs using List.reverseRecOn with
  | nil => exact hs
  | append_singleton xs x ih =>
      rw [final_snoc, history_snoc]
      exact hstep _ _ _ ih

/-- **Output rule.**  What every call with a good output preserves holds after
a sequence of calls whose outputs are all good. -/
theorem final_of_outputs {P : σ → Prop} {Q : ω → Prop}
    (hstep : ∀ s x, P s → Q (step s x).1 → P (step s x).2)
    (hs : P s) (hgood : ∀ o ∈ outputs step s xs, Q o) : P (final step s xs) := by
  induction xs generalizing s with
  | nil => exact hs
  | cons x xs ih =>
      rw [outputs_cons, List.forall_mem_cons] at hgood
      exact ih (hstep s x hs hgood.1) hgood.2

theorem history_cons : history step s (x :: xs) =
    history step (step s x).2 xs ++ [(x, (step s x).1)] := by
  rw [history, history, outputs_cons, List.zip_cons_cons, List.reverse_cons]

/-- Related states give the same outputs, call by call. -/
theorem outputs_bisim {R : σ → τ → Prop}
    (hstep : ∀ s t x, R s t → (step s x).1 = (step' t x).1 ∧ R (step s x).2 (step' t x).2)
    {t : τ} (hR : R s t) : outputs step s xs = outputs step' t xs := by
  induction xs generalizing s t with
  | nil => rfl
  | cons x xs ih =>
      obtain ⟨hout, hnext⟩ := hstep s t x hR
      rw [outputs_cons, outputs_cons, hout, ih hnext]

/-! #### Allowed sequences -/

/-- Every call of the sequence is made in a state that allows it. -/
def Allowed (step : σ → ι → ω × σ) (ok : σ → ι → Prop) : σ → List ι → Prop
  | _, [] => True
  | s, x :: xs => ok s x ∧ Allowed step ok (step s x).2 xs

/-- **Purge rule.**  If the kept calls are matched by the other system and the
dropped ones do not change what relates the two, then the relation holds at
the end between the whole sequence and the kept calls alone. -/
theorem final_purge {ok : σ → ι → Prop} {R : σ → τ → Prop} (keep : ι → Bool)
    (hkeep : ∀ s t x, R s t → ok s x → keep x = true → R (step s x).2 (step' t x).2)
    (hdrop : ∀ s t x, R s t → ok s x → keep x = false → R (step s x).2 t)
    {t : τ} (hR : R s t) (hok : Allowed step ok s xs) :
    R (final step s xs) (final step' t (xs.filter keep)) := by
  induction xs generalizing s t with
  | nil => exact hR
  | cons x xs ih =>
      obtain ⟨hx, hxs⟩ := hok
      rcases hk : keep x with - | -
      · rw [List.filter_cons_of_neg (by simp [hk])]
        exact ih (hdrop s t x hR hx hk) hxs
      · rw [List.filter_cons_of_pos hk]
        exact ih (hkeep s t x hR hx hk) hxs

/-- **Purge rule** with outputs.  If the kept calls also answer alike, then the
kept part of the history is the history of the kept calls alone, and the two
ends are related. -/
theorem history_purge {R : σ → τ → Prop} (keep : ι → Bool)
    (hkeep : ∀ s t x, R s t → keep x = true →
      (step s x).1 = (step' t x).1 ∧ R (step s x).2 (step' t x).2)
    (hdrop : ∀ s t x, R s t → keep x = false → R (step s x).2 t)
    {t : τ} (hR : R s t) :
    (history step s xs).filter (fun e => keep e.1) = history step' t (xs.filter keep) ∧
      R (final step s xs) (final step' t (xs.filter keep)) := by
  induction xs generalizing s t with
  | nil => exact ⟨rfl, hR⟩
  | cons x xs ih =>
      rw [history_cons, List.filter_append]
      rcases hk : keep x with - | -
      · obtain ⟨hhist, hfinal⟩ := ih (hdrop s t x hR hk)
        refine ⟨?_, by rwa [List.filter_cons_of_neg (by simp [hk])]⟩
        rw [hhist, List.filter_cons_of_neg (by simp [hk]), List.filter_cons_of_neg (by simp [hk]),
          List.filter_nil, List.append_nil]
      · obtain ⟨hout, hnext⟩ := hkeep s t x hR hk
        obtain ⟨hhist, hfinal⟩ := ih hnext
        refine ⟨?_, by rwa [List.filter_cons_of_pos hk]⟩
        have hlast : [(x, (step s x).1)].filter (fun e => keep e.1) = [(x, (step s x).1)] :=
          List.filter_cons_of_pos hk
        rw [hhist, hlast, List.filter_cons_of_pos hk, history_cons, hout]

end Calls

end Runs

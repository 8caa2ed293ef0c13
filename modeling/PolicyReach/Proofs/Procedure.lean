import PolicyReach.AnalysisError

/-!
# Procedures

A procedure changes a state where it stands, write by write, and may fail between two writes. What it has
written by then stays written: nothing takes it back (`exec_bind_error`). That a procedure which fails has
changed nothing is therefore a fact about the order of its checks and its writes.

* `Procedure.exec`: what a procedure gives, and the state that it leaves, also when it fails;
* `Procedure.inside`: a procedure on a part of the state;
* `settle`: the outcome of an operation that gives another state only if it succeeds;
* **`exec_check`**, **`exec_last_write`**: a procedure does what such an operation does if all that can
  fail comes before its first write.
-/

namespace PolicyReach

/-- A procedure on a state. -/
abbrev Procedure (σ α : Type) := ExceptT AnalysisError (StateM σ) α

namespace Procedure

variable {σ τ α β γ : Type}

/-- What a procedure gives, with the state that it leaves. -/
def exec (x : Procedure σ α) (s : σ) : Except AnalysisError α × σ := (ExceptT.run x).run s

/-- A procedure on a part of the state. -/
def inside (part : σ → τ) (put : σ → τ → σ) (x : Procedure τ α) : Procedure σ α :=
  ExceptT.mk fun s => ((exec x (part s)).1, put s (exec x (part s)).2)

variable {x : Procedure σ α} {f : α → Procedure σ β} {s s' : σ} {a : α} {e : AnalysisError}

theorem exec_pure (a : α) (s : σ) : exec (pure a) s = (.ok a, s) := rfl

theorem exec_get_bind {f : σ → Procedure σ β} : exec (get >>= f) s = exec (f s) s := rfl

theorem exec_modify (f : σ → σ) (s : σ) : exec (modify f : Procedure σ PUnit) s = (.ok ⟨⟩, f s) := rfl

theorem exec_inside (part : σ → τ) (put : σ → τ → σ) (x : Procedure τ α) (s : σ) :
    exec (inside part put x) s = ((exec x (part s)).1, put s (exec x (part s)).2) := rfl

theorem exec_bind_ok (h : exec x s = (.ok a, s')) : exec (x >>= f) s = exec (f a) s' := by
  have hbind : exec (x >>= f) s = exec (ExceptT.mk (ExceptT.bindCont f (exec x s).1)) (exec x s).2 := rfl
  rw [hbind, h]
  rfl

/-- A procedure that fails leaves what it has written. -/
theorem exec_bind_error (h : exec x s = (.error e, s')) : exec (x >>= f) s = (.error e, s') := by
  have hbind : exec (x >>= f) s = exec (ExceptT.mk (ExceptT.bindCont f (exec x s).1)) (exec x s).2 := rfl
  rw [hbind, h]
  rfl

theorem exec_map {o : Except AnalysisError α × σ} (hx : exec x s = o) (g : α → β) :
    exec (g <$> x) s = (o.1.map g, o.2) := by
  rw [map_eq_pure_bind]
  obtain ⟨r, s'⟩ := o
  cases r with
  | error e => exact exec_bind_error hx
  | ok a => exact exec_bind_ok hx

theorem exec_ofExcept (r : Except AnalysisError α) (s : σ) :
    exec (ofExcept r : Procedure σ α) s = (r, s) := by
  cases r <;> rfl

/-- A loop that writes for each element of a list writes what the fold of it gives. -/
theorem exec_forM_modify (g : σ → γ → σ) :
    ∀ (l : List γ) (s : σ),
      exec (forM l fun c => modify fun s => g s c : Procedure σ PUnit) s = (.ok ⟨⟩, l.foldl g s)
  | [], _ => rfl
  | c :: l, s => by
    rw [List.forM_cons, exec_bind_ok (exec_modify _ s), exec_forM_modify g l]
    rfl

/-! ## Operations that change all or nothing -/

/-- The outcome of an operation that gives another state only if it succeeds. -/
def settle (s : σ) : Except AnalysisError (α × σ) → Except AnalysisError α × σ
  | .ok (a, s') => (.ok a, s')
  | .error e => (.error e, s)

/-- A check that comes before every write. -/
theorem exec_check {r : Except AnalysisError α} {g : α → Except AnalysisError (β × σ)}
    (h : ∀ a, r = .ok a → exec (f a) s = settle s (g a)) :
    exec (ofExcept r >>= f) s = settle s (r >>= g) := by
  cases r with
  | error e => rfl
  | ok a => exact (exec_bind_ok (exec_ofExcept (.ok a) s)).trans (h a rfl)

/-- What comes after an operation that changes all or nothing, if it cannot fail. -/
theorem exec_last_write {r : Except AnalysisError (α × σ)} {g : α × σ → β × σ}
    (hx : exec x s = settle s r) (h : ∀ a s', exec (f a) s' = (.ok (g (a, s')).1, (g (a, s')).2)) :
    exec (x >>= f) s = settle s (r.map g) := by
  cases r with
  | error e => exact exec_bind_error hx
  | ok y => exact (exec_bind_ok hx).trans (h y.1 y.2)

/-- An operation on a part of the state. -/
theorem exec_inside_settle {part : σ → τ} {put : σ → τ → σ} {x : Procedure τ α}
    {r : Except AnalysisError (α × τ)} (hx : exec x (part s) = settle (part s) r)
    (hput : put s (part s) = s) :
    exec (inside part put x) s = settle s (r.map fun y => (y.1, put s y.2)) := by
  rw [exec_inside, hx]
  cases r with
  | error e => exact congrArg (Prod.mk _) hput
  | ok y => rfl

end Procedure

end PolicyReach

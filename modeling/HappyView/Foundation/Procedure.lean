import Mathlib.Data.List.Basic

/-!
# Procedures that may stop

A procedure reads and writes a state and either returns a value or stops early, by an error or
because the process is gone; what it has written by then stays. `wp x post halt s` says of a
procedure started in `s` that `post` holds of the value and the state it returns with, and
`halt` of the state it stops in.
-/

namespace HappyView.Foundation

abbrev Procedure (σ ε α : Type) := ExceptT ε (StateM σ) α

variable {σ ε α β : Type}

def wp (x : Procedure σ ε α) (post : α → σ → Prop) (halt : σ → Prop) (s : σ) : Prop :=
  match x.run s with
  | (.ok value, t) => post value t
  | (.error _, t) => halt t

variable {x : Procedure σ ε α} {f : α → Procedure σ ε β} {post : α → σ → Prop} {halt : σ → Prop}
  {s : σ}

@[simp] theorem wp_pure {value : α} :
    wp (pure value : Procedure σ ε α) post halt s ↔ post value s := Iff.rfl

@[simp] theorem wp_throw {error : ε} :
    wp (throw error : Procedure σ ε α) post halt s ↔ halt s := Iff.rfl

@[simp] theorem wp_get {post : σ → σ → Prop} :
    wp (get : Procedure σ ε σ) post halt s ↔ post s s := Iff.rfl

@[simp] theorem wp_modify {g : σ → σ} {post : Unit → σ → Prop} :
    wp (modify g : Procedure σ ε Unit) post halt s ↔ post () (g s) := Iff.rfl

theorem wp_bind {post : β → σ → Prop} :
    wp (x >>= f) post halt s ↔ wp x (fun value t => wp (f value) post halt t) halt s := by
  unfold wp
  simp only [bind, ExceptT.bind, ExceptT.mk, ExceptT.run, StateT.bind]
  cases h : x s with
  | mk result t => cases result <;> rfl

theorem wp_mono {post' : α → σ → Prop} {halt' : σ → Prop} (h : wp x post halt s)
    (returns : ∀ value t, post value t → post' value t) (halts : ∀ t, halt t → halt' t) :
    wp x post' halt' s := by
  unfold wp at h ⊢
  split at h
  · exact returns _ _ h
  · exact halts _ h

theorem wp_always (always : σ → Prop) (h : wp x (fun _ t => always t) always s) :
    always (x.run s).2 := by
  unfold wp at h
  split at h <;> simp_all

theorem wp_returns {value : α} (h : wp x post halt s) (returned : (x.run s).1 = .ok value) :
    post value (x.run s).2 := by
  unfold wp at h
  split at h <;> simp_all

/-! ## How a procedure moves the state -/

/-- From `s` the procedure returns with `post`, in a state that `moves` leads to, or stops in one
that `stops` leads to. -/
def Steps (moves stops : σ → σ → Prop) (x : Procedure σ ε α) (post : α → σ → Prop) (s : σ) : Prop :=
  wp x (fun value t => moves s t ∧ post value t) (stops s) s

structure Chains (moves stops : σ → σ → Prop) : Prop where
  refl : ∀ s, moves s s
  trans : ∀ s t u, moves s t → moves t u → moves s u
  stop : ∀ s t u, moves s t → stops t u → stops s u

variable {moves stops : σ → σ → Prop}

theorem steps_pure (chains : Chains moves stops) {value : α} (h : post value s) :
    Steps moves stops (pure value : Procedure σ ε α) post s :=
  ⟨chains.refl s, h⟩

theorem steps_bind (chains : Chains moves stops) {post' : β → σ → Prop}
    (first : Steps moves stops x post s)
    (next : ∀ value t, moves s t → post value t → Steps moves stops (f value) post' t) :
    Steps moves stops (x >>= f) post' s := by
  refine wp_bind.mpr (wp_mono first ?_ fun _ stop => stop)
  rintro value t ⟨moved, reached⟩
  refine wp_mono (next value t moved reached) ?_ fun u stop => chains.stop s t u moved stop
  rintro value' u ⟨further, reached⟩
  exact ⟨chains.trans s t u moved further, reached⟩

theorem steps_mono {post' : α → σ → Prop} (h : Steps moves stops x post s)
    (weaker : ∀ value t, moves s t → post value t → post' value t) :
    Steps moves stops x post' s :=
  wp_mono h (fun value t ⟨moved, reached⟩ => ⟨moved, weaker value t moved reached⟩)
    fun _ stop => stop

end HappyView.Foundation

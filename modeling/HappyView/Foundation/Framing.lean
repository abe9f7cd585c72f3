import Mathlib.Data.List.TakeDrop

/-!
# Readers that accept exactly what is written

A reader takes a value off the front of its input. `Exact` says that it reads back what the
writer wrote, whatever follows, and that it reads nothing else: every input it accepts is the
written form of the value it gives. Such readers compose.
-/

namespace HappyView.Foundation.Framing

variable {α β γ ε : Type}

structure Exact (read : StateT (List β) (Except ε) α) (write : α → List β) (fits : α → Prop) :
    Prop where
  reads : ∀ a rest, fits a → read (write a ++ rest) = .ok (a, rest)
  writes : ∀ input a rest, read input = .ok (a, rest) → fits a ∧ input = write a ++ rest

theorem bind_eq_ok {first : StateT (List β) (Except ε) α} {next : α → StateT (List β) (Except ε) γ}
    {input rest : List β} {c : γ} :
    (first >>= next) input = .ok (c, rest) ↔
      ∃ a mid, first input = .ok (a, mid) ∧ next a mid = .ok (c, rest) := by
  cases h : first input <;> simp [bind, StateT.bind, Except.bind, h, Prod.ext_iff, and_assoc]

theorem Exact.bind {first : StateT (List β) (Except ε) α}
    {next : α → StateT (List β) (Except ε) γ} {writeHead : α → List β} {writeBody : γ → List β}
    {p : α → Prop} {q : γ → Prop} {head : γ → α} (exact : Exact first writeHead p)
    (body : ∀ a, p a → Exact (next a) writeBody fun c => head c = a ∧ q c) :
    Exact (first >>= next) (fun c => writeHead (head c) ++ writeBody c)
      fun c => p (head c) ∧ q c where
  reads c rest fits := by
    obtain ⟨fitsHead, fitsBody⟩ := fits
    rw [bind_eq_ok]
    refine ⟨head c, writeBody c ++ rest, ?_, ?_⟩
    · rw [List.append_assoc]
      exact exact.reads _ _ fitsHead
    · exact (body _ fitsHead).reads c rest ⟨rfl, fitsBody⟩
  writes input c rest h := by
    obtain ⟨a, mid, one, two⟩ := bind_eq_ok.mp h
    obtain ⟨fitsHead, rfl⟩ := exact.writes _ _ _ one
    obtain ⟨⟨rfl, fitsBody⟩, rfl⟩ := (body a fitsHead).writes _ _ _ two
    exact ⟨⟨fitsHead, fitsBody⟩, (List.append_assoc ..).symm⟩

def take (short : ε) (n : Nat) : StateT (List β) (Except ε) (List β) := fun input =>
  if (input.take n).length = n then .ok (input.take n, input.drop n) else .error short

theorem exact_take (short : ε) (n : Nat) :
    Exact (β := β) (take short n) id fun symbols => symbols.length = n where
  reads symbols rest fits := by
    have front : (symbols ++ rest).take n = symbols := List.take_left' fits
    rw [id, take, front, if_pos fits, List.drop_left' fits]
  writes input symbols rest h := by
    unfold take at h
    split at h
    · rename_i enough
      cases h
      exact ⟨enough, (List.take_append_drop n input).symm⟩
    · cases h

def each {σ : Type} (read : σ → StateT (List β) (Except ε) α) :
    List σ → StateT (List β) (Except ε) (List α)
  | [] => return []
  | shape :: shapes => do
    let a ← read shape
    let as ← each read shapes
    return a :: as

theorem exact_each {σ : Type} {read : σ → StateT (List β) (Except ε) α} {write : α → List β}
    {shape : α → σ} {fits : α → Prop}
    (one : ∀ s, Exact (read s) write fun a => shape a = s ∧ fits a) (shapes : List σ) :
    Exact (each read shapes) (fun as => as.flatMap write)
      fun as => as.map shape = shapes ∧ ∀ a ∈ as, fits a where
  reads as rest ok := by
    obtain ⟨rfl, all⟩ := ok
    induction as with
    | nil => rfl
    | cons a as ih =>
      obtain ⟨first, others⟩ := List.forall_mem_cons.mp all
      rw [List.map_cons, each, bind_eq_ok]
      refine ⟨a, as.flatMap write ++ rest, ?_, ?_⟩
      · rw [List.flatMap_cons, List.append_assoc]
        exact (one _).reads a _ ⟨rfl, first⟩
      · rw [bind_eq_ok]
        exact ⟨as, rest, ih others, rfl⟩
  writes input as rest read := by
    induction shapes generalizing input as with
    | nil =>
      cases read
      exact ⟨⟨rfl, by simp⟩, rfl⟩
    | cons s shapes ih =>
      obtain ⟨a, mid, first, more⟩ := bind_eq_ok.mp read
      obtain ⟨as, last, others, returned⟩ := bind_eq_ok.mp more
      cases returned
      obtain ⟨⟨rfl, fitsOne⟩, rfl⟩ := (one s).writes _ _ _ first
      obtain ⟨⟨rfl, fitsAll⟩, rfl⟩ := ih _ _ others
      exact ⟨⟨rfl, List.forall_mem_cons.mpr ⟨fitsOne, fitsAll⟩⟩, (List.append_assoc ..).symm⟩

theorem Exact.map {read : StateT (List β) (Except ε) α} {write : α → List β} {p : α → Prop}
    (exact : Exact read write p) {make : α → γ} {parts : γ → α} {q : γ → Prop}
    (made : ∀ a, p a → q (make a) ∧ parts (make a) = a)
    (apart : ∀ c, q c → p (parts c) ∧ make (parts c) = c) :
    Exact (do return make (← read)) (fun c => write (parts c)) q where
  reads c rest fits := by
    obtain ⟨fitsParts, same⟩ := apart c fits
    rw [bind_eq_ok]
    refine ⟨parts c, rest, exact.reads _ _ fitsParts, ?_⟩
    rw [same]
    rfl
  writes input c rest h := by
    obtain ⟨a, mid, found, returned⟩ := bind_eq_ok.mp h
    cases returned
    obtain ⟨fits, rfl⟩ := exact.writes _ _ _ found
    obtain ⟨good, same⟩ := made a fits
    exact ⟨good, by rw [same]⟩

theorem Exact.unless {read : StateT (List β) (Except ε) α} {write : α → List β} {p q : α → Prop}
    {refused : Prop} [Decidable refused] {e : ε} (exact : Exact read write p)
    (ok : ¬ refused → ∀ a, p a → q a) (refuses : refused → ∀ a, p a → ¬ q a) :
    Exact (if refused then throw e else read) write fun a => p a ∧ q a := by
  split
  · rename_i bad
    refine ⟨fun a rest fits => absurd fits.2 (refuses bad a fits.1), fun input a rest h => ?_⟩
    cases h
  · rename_i good
    refine ⟨fun a rest fits => exact.reads a rest fits.1, fun input a rest h => ?_⟩
    obtain ⟨fits, same⟩ := exact.writes input a rest h
    exact ⟨⟨fits, ok good a fits⟩, same⟩

end HappyView.Foundation.Framing

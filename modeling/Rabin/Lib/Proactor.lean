import Mathlib.Algebra.BigOperators.Group.List.Basic
import Mathlib.Algebra.Ring.Nat
import Mathlib.Logic.Relation
import Rabin.Lib.Lts

/-!
# An object with operations under way

An object starts operations and goes on when an event of one of them comes in: progress, completion or failure. Its
handler changes the object and starts operations in place of the one the event is of. Any of the operations under
way can be next. `load use l` is how much of the resource `l` the operations under way use. Handlers that start no
more than they had never use more than that, and if no resource is used twice an operation only has to fear the
handlers that share none with it (`invariant_of_handlers`).
-/

namespace Proactor
variable {σ ω ε ℓ : Type*}

structure Loop (σ ω : Type*) where
  obj : σ
  pending : List ω

variable (handle : σ → ω → ε → Option (σ × List ω)) (use : ω → ℓ → ℕ)

/-- The event `a.2` of the operation with the number `a.1`. -/
def step (s : Loop σ ω) (a : ℕ × ε) : Option (Loop σ ω) :=
  s.pending[a.1]?.bind fun o => (handle s.obj o a.2).map fun r => ⟨r.1, s.pending.eraseIdx a.1 ++ r.2⟩

def load (os : List ω) (l : ℓ) : ℕ := (os.map (use · l)).sum

variable {handle use} {s s' : Loop σ ω} {a : ℕ × ε} {l : ℓ}

theorem step_cases (h : step handle s a = some s') :
    ∃ us o vs obj os, s.pending[a.1]? = some o ∧ s.pending = us ++ o :: vs ∧
      handle s.obj o a.2 = some (obj, os) ∧ s' = ⟨obj, us ++ vs ++ os⟩ := by
  obtain ⟨o, ho, h⟩ := Option.bind_eq_some_iff.1 h
  obtain ⟨⟨obj, os⟩, hh, rfl⟩ := Option.map_eq_some_iff.1 h
  obtain ⟨hlt, hget⟩ := List.getElem?_eq_some_iff.1 ho
  refine ⟨s.pending.take a.1, o, s.pending.drop (a.1 + 1), obj, os, ho, ?_, hh, ?_⟩
  · rw [← hget, ← List.drop_eq_getElem_cons hlt, List.take_append_drop]
  · rw [List.eraseIdx_eq_take_drop_succ]

@[simp] theorem load_cons (o : ω) (os : List ω) : load use (o :: os) l = use o l + load use os l := by
  simp [load]

@[simp] theorem load_append (os os' : List ω) : load use (os ++ os') l = load use os l + load use os' l := by
  simp [load]

theorem le_load {o : ω} {os : List ω} (h : o ∈ os) : use o l ≤ load use os l := by
  obtain ⟨us, vs, rfl⟩ := List.append_of_mem h
  simp only [load_append, load_cons]
  omega

variable (handle use) in
/-- What a handler starts uses no more than the operation it was called for. -/
def Frugal : Prop := ∀ s o e s' os, handle s o e = some (s', os) → ∀ l, load use os l ≤ use o l

theorem load_step (hf : Frugal handle use) (h : step handle s a = some s') :
    load use s'.pending l ≤ load use s.pending l := by
  obtain ⟨us, o, vs, obj, os, -, hp, hh, rfl⟩ := step_cases h
  have := hf _ _ _ _ _ hh l
  simp only [hp, load_append, load_cons]
  omega

/-- No resource is used twice. -/
def Exclusive (use : ω → ℓ → ℕ) (os : List ω) : Prop := ∀ l, load use os l ≤ 1

theorem Exclusive.step (he : Exclusive use s.pending) (hf : Frugal handle use) (h : step handle s a = some s') :
    Exclusive use s'.pending := fun l => Nat.le_trans (load_step hf h) (he l)

/-- The others use nothing that one of the operations uses. -/
theorem Exclusive.apart {us vs : List ω} {o o' : ω} (he : Exclusive use (us ++ o :: vs)) (ho : o' ∈ us ++ vs)
    (hl : 0 < use o l) : use o' l = 0 := by
  have h1 := he l
  have h2 : use o' l ≤ load use (us ++ vs) l := le_load ho
  simp only [load_append, load_cons] at h1 h2
  omega

section
variable {β : Type*} {R : σ → β → Prop} {P : σ → β → ω → Prop} {b b' : β}

variable (use R P) in
/-- The state `b` of another system keeps up with the object: `R` relates the two, and `P` an operation under way. -/
structure Tracks (s : Loop σ ω) (b : β) : Prop where
  exclusive : Exclusive use s.pending
  obj : R s.obj b
  pending : ∀ o ∈ s.pending, P s.obj b o

variable (use R P) in
/-- A handler called for `o` leaves `s'`, and the other system `b'`: the operations that it starts have to be seen to,
and those that use nothing `o` uses. -/
structure Keeps (s : σ) (b : β) (o : ω) (s' : σ) (os : List ω) (b' : β) : Prop where
  obj : R s' b'
  started : ∀ o' ∈ os, P s' b' o'
  others : ∀ o', (∀ l, 0 < use o l → use o' l = 0) → P s b o' → P s' b' o'

theorem Tracks.step (h : Tracks use R P s b) (hf : Frugal handle use) (hs : step handle s a = some s') :
    ∃ o os, s.pending[a.1]? = some o ∧ P s.obj b o ∧ handle s.obj o a.2 = some (s'.obj, os) ∧
      ∀ b', Keeps use R P s.obj b o s'.obj os b' → Tracks use R P s' b' := by
  have he' := h.exclusive.step hf hs
  obtain ⟨us, o, vs, obj, os, hget, hp, hh, rfl⟩ := step_cases hs
  refine ⟨o, os, hget, h.pending o (by simp [hp]), hh, fun b' hk => ⟨he', hk.obj, fun o' ho' => ?_⟩⟩
  rcases List.mem_append.1 ho' with ho' | ho'
  · refine hk.others o' (fun l hl => (hp ▸ h.exclusive).apart ho' hl) (h.pending o' ?_)
    rw [hp]
    rcases List.mem_append.1 ho' with ho' | ho' <;> simp [ho']
  · exact hk.started o' ho'

/-- A run of the handlers is simulated by another system if each handler is. -/
theorem simulation_of_handlers {M : β → β → Prop} (hf : Frugal handle use)
    (hstep : ∀ s b o e s' os, R s b → P s b o → handle s o e = some (s', os) →
      ∃ b', (b' = b ∨ M b b') ∧ Keeps use R P s b o s' os b')
    {as : List (ℕ × ε)} (hr : Lts.run (step handle) s as = some s') (h0 : Tracks use R P s b) :
    ∃ b', Relation.ReflTransGen M b b' ∧ Tracks use R P s' b' := by
  refine Lts.invariant (I := fun s => ∃ b', Relation.ReflTransGen M b b' ∧ Tracks use R P s b') ?_ ⟨b, .refl, h0⟩ hr
  rintro s₁ a s₂ ⟨b₁, hmoves, h⟩ hs
  obtain ⟨o, os, -, hPo, hh, hnext⟩ := h.step hf hs
  obtain ⟨b₂, hmove, hk⟩ := hstep _ _ _ _ _ _ h.obj hPo hh
  refine ⟨b₂, ?_, hnext b₂ hk⟩
  rcases hmove with rfl | hmove
  · exact hmoves
  · exact hmoves.tail hmove

end

/-- What handlers keep of the object, `I`, and of the operations under way, `P`. -/
theorem invariant_of_handlers {I : σ → Prop} {P : σ → ω → Prop} (hf : Frugal handle use)
    (hown : ∀ s o e s' os, I s → P s o → handle s o e = some (s', os) → I s' ∧ ∀ o' ∈ os, P s' o')
    (hother : ∀ s o e s' os o', handle s o e = some (s', os) → (∀ l, 0 < use o l → use o' l = 0) → P s o' → P s' o')
    {as : List (ℕ × ε)} (hr : Lts.run (step handle) s as = some s')
    (he : Exclusive use s.pending) (h0 : I s.obj) (hP : ∀ o ∈ s.pending, P s.obj o) :
    Exclusive use s'.pending ∧ I s'.obj ∧ ∀ o ∈ s'.pending, P s'.obj o := by
  have hstep : ∀ s (_ : Unit) o e s' os, I s → P s o → handle s o e = some (s', os) →
      ∃ b' : Unit, (b' = () ∨ True) ∧ Keeps use (fun s _ => I s) (fun s _ => P s) s () o s' os b' := by
    intro s _ o e s' os hI hPo hh
    obtain ⟨hI', hnew⟩ := hown s o e s' os hI hPo hh
    exact ⟨(), .inl rfl, hI', hnew, fun o' ha hPo' => hother s o e s' os o' hh ha hPo'⟩
  obtain ⟨_, -, h⟩ := simulation_of_handlers (M := fun _ _ => True) hf hstep hr (b := ()) ⟨he, h0, hP⟩
  exact ⟨h.exclusive, h.obj, h.pending⟩

end Proactor

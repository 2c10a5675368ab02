import Mathlib.Order.Basic

/-!
Programs that call themselves under a guard. A counter is raised on the way in, up to a limit, and
lowered on the way out, whether the call succeeded or not.

A program has fuel for so many calls within one another; without it, it does not end. It is enough
that the fuel reaches from the counter to the limit, and more of it changes nothing.
-/

namespace Arkeion.Lib

/-- A state and how deep the program is. -/
structure Deep (limit : ℕ) (σ : Type) where
  state : σ
  depth : ℕ
  depth_le : depth ≤ limit

/-- A result or an error, with the state it leaves; `none` where the program does not end. -/
def Guarded (limit : ℕ) (σ ε α : Type) := Deep limit σ → Option (Except ε α × Deep limit σ)

namespace Guarded

variable {limit : ℕ} {σ ε α β : Type}

def bind (p : Guarded limit σ ε α) (f : α → Guarded limit σ ε β) : Guarded limit σ ε β := fun s =>
  match p s with
  | none => none
  | some (.error e, t) => some (.error e, t)
  | some (.ok a, t) => f a t

instance : Monad (Guarded limit σ ε) where
  pure a := fun s => some (.ok a, s)
  bind := bind

def lift (x : Except ε α) : Guarded limit σ ε α := fun s => some (x, s)

def read (f : σ → Except ε α) : Guarded limit σ ε α := fun s => some (f s.state, s)

/-- What changes the state, and may fail behind that, but not the depth. -/
def act (f : σ → Except ε α × σ) : Guarded limit σ ε α := fun s =>
  some ((f s.state).1, ⟨(f s.state).2, s.depth, s.depth_le⟩)

/-- An error as a result. -/
def attempt (p : Guarded limit σ ε α) : Guarded limit σ ε (Except ε α) := fun s =>
  (p s).map fun r => (.ok r.1, r.2)

def enter (e : ε) : Guarded limit σ ε Unit := fun s =>
  if h : s.depth < limit then some (.ok (), ⟨s.state, s.depth + 1, h⟩) else some (.error e, s)

def leave : Guarded limit σ ε Unit := fun s =>
  some (.ok (), ⟨s.state, s.depth - 1, Nat.le_trans (Nat.sub_le _ _) s.depth_le⟩)

/-- One deeper, and back. -/
def nested (e : ε) (p : Guarded limit σ ε α) : Guarded limit σ ε α := do
  enter e
  let r ← attempt p
  leave
  lift r

/-- Without fuel. -/
def never : Guarded limit σ ε α := fun _ => none

/-- One element after the other. -/
def fold (f : β → α → Guarded limit σ ε β) : List α → β → Guarded limit σ ε β
  | [], b => pure b
  | a :: as, b => do
    let b ← f b a
    fold f as b

def forEach (f : α → Guarded limit σ ε Unit) (as : List α) : Guarded limit σ ε Unit :=
  fold (fun _ a => f a) as ()

end Guarded

section Returns
variable {limit k : ℕ} {σ ε α β : Type} {p p' : Guarded limit σ ε α}
  {f f' : α → Guarded limit σ ε β}

/-- The program comes back to the depth it began at, and with fuel from there to the limit it comes
back. Where it comes back, `p'`, which has more fuel, does the same. -/
structure Returns (k : ℕ) (p p' : Guarded limit σ ε α) : Prop where
  balanced : ∀ s r t, p s = some (r, t) → t.depth = s.depth
  steady : ∀ s r t, p s = some (r, t) → p' s = some (r, t)
  ends : ∀ s, limit < k + s.depth → ∃ r t, p s = some (r, t)

lemma nested_of_lt {e : ε} {s : Deep limit σ} (h : s.depth < limit) : Guarded.nested e p s =
    (p ⟨s.state, s.depth + 1, h⟩).map fun r =>
      (r.1, ⟨r.2.state, r.2.depth - 1, Nat.le_trans (Nat.sub_le _ _) r.2.depth_le⟩) := by
  change Guarded.bind (.enter e) _ s = _
  unfold Guarded.bind Guarded.enter
  rw [dif_pos h]
  change Guarded.bind (.attempt p) _ _ = _
  unfold Guarded.bind Guarded.attempt
  cases p ⟨s.state, s.depth + 1, h⟩ with
  | none => rfl
  | some r => rfl

lemma nested_of_le {e : ε} {s : Deep limit σ} (h : limit ≤ s.depth) :
    Guarded.nested e p s = some (.error e, s) := by
  change Guarded.bind (.enter e) _ s = _
  unfold Guarded.bind Guarded.enter
  rw [dif_neg (Nat.not_lt.2 h)]

namespace Returns

/-- What does not call. -/
lemma step {g : Deep limit σ → Except ε α × Deep limit σ} (h : ∀ s, (g s).2.depth = s.depth) :
    Returns k (fun s => some (g s) : Guarded limit σ ε α) (fun s => some (g s)) where
  balanced := fun s r t hrun => by
    rw [← h s, Option.some.inj hrun]
  steady := fun _ _ _ hrun => hrun
  ends := fun s _ => ⟨(g s).1, (g s).2, rfl⟩

lemma pure (a : α) : Returns k (pure a : Guarded limit σ ε α) (pure a) := step fun _ => rfl

lemma lift (x : Except ε α) : Returns k (.lift x : Guarded limit σ ε α) (.lift x) :=
  step fun _ => rfl

lemma read (f : σ → Except ε α) : Returns k (.read f : Guarded limit σ ε α) (.read f) :=
  step fun _ => rfl

lemma act (f : σ → Except ε α × σ) : Returns k (.act f : Guarded limit σ ε α) (.act f) :=
  step fun _ => rfl

/-- Without fuel nothing is promised. -/
lemma never : Returns 0 (.never : Guarded limit σ ε α) p where
  balanced := fun _ _ _ h => by cases h
  steady := fun _ _ _ h => by cases h
  ends := fun s hfuel => absurd hfuel (by
    have := s.depth_le
    omega)

/-- The rule of sequence. -/
lemma bind (h : Returns k p p') (hf : ∀ a, Returns k (f a) (f' a)) :
    Returns k (p >>= f) (p' >>= f') where
  balanced := fun s r t hrun => by
    change Guarded.bind p f s = _ at hrun
    unfold Guarded.bind at hrun
    split at hrun
    · cases hrun
    · next e u hp =>
      cases hrun
      exact h.balanced s _ _ hp
    · next a u hp => exact ((hf a).balanced u r t hrun).trans (h.balanced s _ _ hp)
  steady := fun s r t hrun => by
    change Guarded.bind p f s = _ at hrun
    change Guarded.bind p' f' s = _
    unfold Guarded.bind at hrun ⊢
    split at hrun
    · cases hrun
    · next e u hp =>
      cases hrun
      rw [h.steady s _ _ hp]
    · next a u hp =>
      rw [h.steady s _ _ hp]
      exact (hf a).steady u r t hrun
  ends := fun s hfuel => by
    obtain ⟨r, u, hp⟩ := h.ends s hfuel
    have hdepth := h.balanced s r u hp
    change ∃ r t, Guarded.bind p f s = some (r, t)
    unfold Guarded.bind
    rw [hp]
    cases r with
    | error e => exact ⟨_, _, rfl⟩
    | ok a => exact (hf a).ends u (hdepth ▸ hfuel)

/-- A call within a guard: it needs fuel for one more. -/
lemma nested {e : ε} (h : Returns k p p') : Returns (k + 1) (.nested e p) (.nested e p') where
  balanced := fun s r t hrun => by
    rcases Nat.lt_or_ge s.depth limit with hlt | hge
    · rw [nested_of_lt hlt] at hrun
      obtain ⟨x, hx, heq⟩ := Option.map_eq_some_iff.1 hrun
      have hdepth := h.balanced _ x.1 x.2 hx
      cases heq
      change x.2.depth - 1 = s.depth
      rw [hdepth, Nat.add_sub_cancel]
    · rw [nested_of_le hge] at hrun
      cases hrun
      rfl
  steady := fun s r t hrun => by
    rcases Nat.lt_or_ge s.depth limit with hlt | hge
    · rw [nested_of_lt hlt] at hrun ⊢
      obtain ⟨x, hx, heq⟩ := Option.map_eq_some_iff.1 hrun
      rw [h.steady _ x.1 x.2 hx]
      exact congrArg some heq
    · rw [nested_of_le hge] at hrun ⊢
      exact hrun
  ends := fun s hfuel => by
    rcases Nat.lt_or_ge s.depth limit with hlt | hge
    · obtain ⟨r, t, hp⟩ := h.ends ⟨s.state, s.depth + 1, hlt⟩ (by
        change limit < k + (s.depth + 1)
        omega)
      rw [nested_of_lt hlt, hp]
      exact ⟨_, _, rfl⟩
    · rw [nested_of_le hge]
      exact ⟨_, _, rfl⟩

lemma ite {c : Prop} [Decidable c] {q q' : Guarded limit σ ε α} (h : Returns k p p')
    (h' : Returns k q q') : Returns k (if c then p else q) (if c then p' else q') := by
  split_ifs
  · exact h
  · exact h'

lemma fold {g g' : β → α → Guarded limit σ ε β} (h : ∀ b a, Returns k (g b a) (g' b a))
    (as : List α) (b : β) : Returns k (.fold g as b) (.fold g' as b) := by
  induction as generalizing b with
  | nil => exact .pure b
  | cons a as ih => exact (h b a).bind fun b => ih b

lemma forEach {g g' : α → Guarded limit σ ε Unit} (h : ∀ a, Returns k (g a) (g' a))
    (as : List α) : Returns k (.forEach g as) (.forEach g' as) := fold (fun _ => h) as ()

end Returns

end Returns

end Arkeion.Lib

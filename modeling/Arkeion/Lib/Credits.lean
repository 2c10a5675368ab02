import Mathlib.Data.Nat.Basic
import Mathlib.Tactic.Linarith

/-!
Programs that pay for what they build.

The state has a measure, and each unit of it that a program uses up gives `w` credits. A program
that pays has, where it succeeds, at least as many credits as the cost of its result. Two programs
are compared at once: what the first one does, the second one does as well, as long as the measure
is below a bound.
-/

namespace Arkeion.Lib

section Credits
variable {σ ε α β : Type} (m : σ → ℕ) (I : σ → Prop) (K w : ℕ)

/-- From `c` credits, with the measure at most `k`: the two end alike, and what is used of the measure
pays for `q` of the result. -/
def Pays (c : ℕ) (p p' : StateT σ (Except ε) α) (q : α → ℕ) : Prop :=
  ∀ k < K, ∀ s, I s → c + w * m s ≤ w * k → ∀ a s', p s = .ok (a, s') →
    p' s = .ok (a, s') ∧ I s' ∧ q a + w * m s' ≤ w * k

variable {m I K w} {c c' k b w' : ℕ} {p p' : StateT σ (Except ε) α} {q q' r : α → ℕ}
  {f f' : α → StateT σ (Except ε) β} {g : α → β} {t : β → ℕ}

lemma Pays.pure (a : α) (h : q a ≤ c) : Pays m I K w c (Pure.pure a) (Pure.pure a : StateT σ (Except ε) α) q := by
  intro k _ s hs hc a' s' hrun
  cases hrun
  exact ⟨rfl, hs, by omega⟩

lemma Pays.bind (hp : Pays m I K w c p p' r) (hf : ∀ a, Pays m I K w (r a) (f a) (f' a) t) :
    Pays m I K w c (p >>= f) (p' >>= f') t := by
  intro k hk s hs hc b s' hrun
  cases hfirst : p s with
  | error e =>
    have hstuck : (p >>= f) s = .error e := by
      change (p s >>= fun x => f x.1 x.2) = _
      rw [hfirst]
      rfl
    rw [hstuck] at hrun
    cases hrun
  | ok x =>
    obtain ⟨a, s₁⟩ := x
    obtain ⟨hsecond, hs₁, hr⟩ := hp k hk s hs hc a s₁ hfirst
    have hstep : (p >>= f) s = f a s₁ := by
      change (p s >>= fun x => f x.1 x.2) = _
      rw [hfirst]
      rfl
    have hstep' : (p' >>= f') s = f' a s₁ := by
      change (p' s >>= fun x => f' x.1 x.2) = _
      rw [hsecond]
      rfl
    rw [hstep] at hrun
    rw [hstep']
    exact hf a k hk s₁ hs₁ hr b s' hrun

lemma Pays.map (hp : Pays m I K w c p p' r) (h : ∀ a, t (g a) ≤ r a) :
    Pays m I K w c (g <$> p) (g <$> p') t :=
  hp.bind fun a => .pure (g a) (h a)

lemma Pays.weaken (hp : Pays m I K w c p p' q) (hc : c ≤ c') (hq : ∀ a, q' a ≤ q a) :
    Pays m I K w c' p p' q' := by
  intro k hk s hs hle a s' hrun
  obtain ⟨hrun', hs', hpay⟩ := hp k hk s hs (by omega) a s' hrun
  have hqa := hq a
  exact ⟨hrun', hs', by omega⟩

lemma Pays.ite {P : Prop} [Decidable P] {e e' : StateT σ (Except ε) α} (hp : P → Pays m I K w c p p' q)
    (he : ¬ P → Pays m I K w c e e' q) :
    Pays m I K w c (if P then p else e) (if P then p' else e') q := by
  split_ifs with h
  · exact hp h
  · exact he h

/-- A program that always fails. -/
lemma Pays.fail (h : ∀ s x, p s ≠ .ok x) : Pays m I K w c p p' q :=
  fun _ _ s _ _ a s' hrun => absurd hrun (h s (a, s'))

lemma le_of_credits (hw : 0 < w) (h : c + w * k ≤ w * b) : k ≤ b :=
  Nat.le_of_mul_le_mul_left (by omega) hw

/-- What is paid for without credits is paid for with them, at any higher price. -/
lemma Pays.heavier (hp : Pays m I K w 0 p p' q) (hw : 0 < w) (hle : w ≤ w') :
    Pays m I K w' c p p' fun a => c + q a := by
  intro k hk s hs hc a s' hrun
  have hm := le_of_credits (hw.trans_le hle) hc
  obtain ⟨hrun', hs', hpay⟩ := hp (m s) (hm.trans_lt hk) s hs (by omega) a s' hrun
  have hless := le_of_credits hw hpay
  obtain ⟨d, rfl⟩ := Nat.exists_eq_add_of_le hle
  have hd := Nat.mul_le_mul_left d hless
  have hused : q a + (w + d) * m s' ≤ (w + d) * m s := by
    rw [Nat.add_mul, Nat.add_mul]
    omega
  refine ⟨hrun', hs', ?_⟩
  dsimp only
  omega

/-- A result may be used twice: at twice the price it is paid for twice. -/
lemma Pays.twice (hp : Pays m I K w 0 p p' q) (hw : 0 < w) (hq : ∀ a, 0 < q a) :
    Pays m I K (2 * w + b) c p p' fun a => c + 2 * q a + b := by
  intro k hk s hs hc a s' hrun
  have hm := le_of_credits (by omega) hc
  obtain ⟨hrun', hs', hpay⟩ := hp (m s) (hm.trans_lt hk) s hs (by omega) a s' hrun
  have hqa := hq a
  have hless : m s' < m s := by
    by_contra hge
    have hmul := Nat.mul_le_mul_left w (not_lt.1 hge)
    omega
  have hb := Nat.mul_le_mul_left b (Nat.succ_le_of_lt hless)
  rw [Nat.mul_succ] at hb
  have hused : 2 * q a + b + (2 * w + b) * m s' ≤ (2 * w + b) * m s := by
    rw [Nat.add_mul, Nat.add_mul, Nat.mul_assoc, Nat.mul_assoc]
    omega
  refine ⟨hrun', hs', ?_⟩
  dsimp only
  omega

/-- With a credit in hand some of the measure is used, so that less of a bound is enough. -/
lemma Pays.later (hp : Pays m I K w 0 p p' q) (hc : 0 < c) :
    Pays m I (K + 1) w c p p' fun a => c + q a := by
  intro k hk s hs hle a s' hrun
  have hlt : m s < k := by
    by_contra hge
    have hmul := Nat.mul_le_mul_left w (not_lt.1 hge)
    omega
  obtain ⟨hrun', hs', hpay⟩ := hp (m s) (by omega) s hs (by omega) a s' hrun
  refine ⟨hrun', hs', ?_⟩
  dsimp only
  omega

/-- A bound that holds of more holds of less. -/
lemma Pays.upto (hp : Pays m I K w c p p' q) (hle : k ≤ K) : Pays m I k w c p p' q :=
  fun _ hk s hs hc a s' hrun => hp _ (hk.trans_le hle) s hs hc a s' hrun

/-- Nothing is below zero. -/
lemma Pays.zero : Pays m I 0 w c p p' q := fun _ hk => absurd hk (Nat.not_lt_zero _)

end Credits

end Arkeion.Lib

import Arkeion.Lib.SortedMap

/-!
Programs over an ordered map: they read and write keys one at a time, and may fail. A program is
run on a list of pairs in ascending order; the keys it inserts pass a check.

Partial correctness of a program: what holds of the map before it holds in another form of what it
returns and the map after it. A run that fails promises nothing. The values that a run writes are of
a given kind, such as those that fit into memory.
-/

namespace Arkeion.Lib

inductive MapProgram (K V ε : Type) (α : Type) where
  | done (a : α)
  | fail (e : ε)
  | get (key : K) (next : Option V → MapProgram K V ε α)
  | scanFrom (start : K) (next : List (K × V) → MapProgram K V ε α)
  | insert (key : K) (value : V) (next : MapProgram K V ε α)
  | delete (key : K) (next : Bool → MapProgram K V ε α)

namespace MapProgram

variable {K V ε α β : Type}

def bind : MapProgram K V ε α → (α → MapProgram K V ε β) → MapProgram K V ε β
  | done a, f => f a
  | fail e, _ => fail e
  | get key next, f => get key fun v => (next v).bind f
  | scanFrom start next, f => scanFrom start fun l => (next l).bind f
  | insert key value next, f => insert key value (next.bind f)
  | delete key next, f => delete key fun b => (next b).bind f

instance : Monad (MapProgram K V ε) where
  pure := done
  bind := bind

def lift : Except ε α → MapProgram K V ε α
  | .ok a => done a
  | .error e => fail e

instance : MonadLift (Except ε) (MapProgram K V ε) := ⟨lift⟩

/-- The value of a key. -/
def read (key : K) : MapProgram K V ε (Option V) := get key done

/-- The pairs from a key on. -/
def readFrom (start : K) : MapProgram K V ε (List (K × V)) := scanFrom start done

def write (key : K) (value : V) : MapProgram K V ε Unit := insert key value (done ())

/-- Whether the key was there. -/
def erase (key : K) : MapProgram K V ε Bool := delete key done

lemma bind_bind {γ : Type} (p : MapProgram K V ε α) (f : α → MapProgram K V ε β)
    (g : β → MapProgram K V ε γ) : p >>= f >>= g = p >>= fun a => f a >>= g := by
  change (p.bind f).bind g = p.bind fun a => (f a).bind g
  induction p with
  | done a => rfl
  | fail e => rfl
  | get key next ih => exact congrArg (get key) (funext ih)
  | scanFrom start next ih => exact congrArg (scanFrom start) (funext ih)
  | insert key value next ih => exact congrArg (insert key value) ih
  | delete key next ih => exact congrArg (delete key) (funext ih)

section Run
variable [LinearOrder K] (check : K → Except ε Unit)

/-- What the program returns, and the map it leaves. -/
def run : MapProgram K V ε α → List (K × V) → Except ε (α × List (K × V))
  | done a, l => .ok (a, l)
  | fail e, _ => .error e
  | get key next, l => (next (valueOf key l)).run l
  | scanFrom start next, l => (next (fromKey start l)).run l
  | insert key value next, l => check key >>= fun _ => next.run (insertKey key value l)
  | delete key next, l => (next (valueOf key l).isSome).run (eraseKey key l)

/-- The insertions the program makes on a map, as far as it goes. -/
def inserted : MapProgram K V ε α → List (K × V) → List (K × V)
  | done _, _ => []
  | fail _, _ => []
  | get key next, l => (next (valueOf key l)).inserted l
  | scanFrom start next, l => (next (fromKey start l)).inserted l
  | insert key value next, l => (key, value) :: next.inserted (insertKey key value l)
  | delete key next, l => (next (valueOf key l).isSome).inserted (eraseKey key l)

variable {check} {l l' : List (K × V)} {key : K} {value : V}

@[simp] lemma run_pure (a : α) :
    (pure a : MapProgram K V ε α).run check l = .ok (a, l) := rfl

@[simp] lemma run_lift (x : Except ε α) :
    (liftM x : MapProgram K V ε α).run check l = x >>= fun a => .ok (a, l) := by
  cases x <;> rfl

@[simp] lemma run_read : (read key : MapProgram K V ε _).run check l = .ok (valueOf key l, l) := rfl

@[simp] lemma run_readFrom :
    (readFrom key : MapProgram K V ε _).run check l = .ok (fromKey key l, l) := rfl

@[simp] lemma run_write : (write key value : MapProgram K V ε _).run check l
    = check key >>= fun _ => .ok ((), insertKey key value l) := rfl

@[simp] lemma run_erase : (erase key : MapProgram K V ε _).run check l
    = .ok ((valueOf key l).isSome, eraseKey key l) := rfl

@[simp] lemma run_bind (p : MapProgram K V ε α) (f : α → MapProgram K V ε β) :
    (p >>= f).run check l = p.run check l >>= fun r => (f r.1).run check r.2 := by
  change (p.bind f).run check l = _
  induction p generalizing l with
  | done a => rfl
  | fail e => rfl
  | get key next ih => exact ih _
  | scanFrom start next ih => exact ih _
  | insert key value next ih =>
    rw [bind, run, run]
    cases check key with
    | error e => rfl
    | ok u => exact ih
  | delete key next ih => exact ih _

/-- A program leaves an ordered map. -/
lemma run_sorted {p : MapProgram K V ε α} {a : α} (h : p.run check l = .ok (a, l'))
    (hl : SortedMap l) : SortedMap l' := by
  induction p generalizing l with
  | done b =>
    cases h
    exact hl
  | fail e => cases h
  | get key next ih => exact ih _ h hl
  | scanFrom start next ih => exact ih _ h hl
  | insert key value next ih =>
    rw [run] at h
    cases hc : check key with
    | error e =>
      rw [hc] at h
      cases h
    | ok u =>
      rw [hc] at h
      exact ih h hl.insertKey
  | delete key next ih => exact ih _ h hl.eraseKey

end Run

/-! ### The keys a program goes by, and how it can fail -/

section Rules
variable [LinearOrder K] (check : K → Except ε Unit)

/-- The program goes by the keys in the set alone: on maps that agree on these it does the same to
them, and it leaves the other keys their values. -/
def LocalTo (P : K → Prop) (p : MapProgram K V ε α) : Prop :=
  ∀ l l', SortedMap l → SortedMap l' → (∀ k, P k → valueOf k l = valueOf k l') →
    (∃ e, p.run check l = .error e ∧ p.run check l' = .error e) ∨
      ∃ a m m', p.run check l = .ok (a, m) ∧ p.run check l' = .ok (a, m') ∧
        (∀ k, P k → valueOf k m = valueOf k m') ∧ ∀ k, ¬ P k → valueOf k m = valueOf k l

/-- The errors of the program are among these. -/
def FailsWith (E : ε → Prop) (p : MapProgram K V ε α) : Prop :=
  ∀ l e, p.run check l = .error e → E e

variable {check} {P Q : K → Prop} {E : ε → Prop} {key : K} {value : V} {l m : List (K × V)}

lemma LocalTo.keeps {p : MapProgram K V ε α} {a : α} (h : LocalTo check P p) (hl : SortedMap l)
    (hrun : p.run check l = .ok (a, m)) {k : K} (hk : ¬ P k) : valueOf k m = valueOf k l := by
  obtain ⟨e, herr, -⟩ | ⟨a', m', m'', hok, -, -, hrest⟩ := h l l hl hl fun k _ => rfl
  · rw [herr] at hrun
    cases hrun
  · rw [hok] at hrun
    cases hrun
    exact hrest k hk

lemma LocalTo.pure (a : α) : LocalTo check P (Pure.pure a : MapProgram K V ε α) :=
  fun l l' _ _ h => Or.inr ⟨a, l, l', rfl, rfl, h, fun _ _ => rfl⟩

lemma LocalTo.lift (x : Except ε α) : LocalTo check P (liftM x : MapProgram K V ε α) := by
  intro l l' _ _ h
  cases x with
  | error e => exact Or.inl ⟨e, rfl, rfl⟩
  | ok a => exact Or.inr ⟨a, l, l', rfl, rfl, h, fun _ _ => rfl⟩

lemma LocalTo.read (hk : P key) : LocalTo check P (MapProgram.read key : MapProgram K V ε _) := by
  intro l l' _ _ h
  refine Or.inr ⟨valueOf key l, l, l', rfl, ?_, h, fun _ _ => rfl⟩
  rw [run_read, h key hk]

lemma LocalTo.write (hk : P key) : LocalTo check P (MapProgram.write key value) := by
  intro l l' hl hl' h
  cases hc : check key with
  | error e => exact Or.inl ⟨e, by rw [run_write, hc]; rfl, by rw [run_write, hc]; rfl⟩
  | ok u =>
    refine Or.inr ⟨(), _, _, by rw [run_write, hc]; rfl, by rw [run_write, hc]; rfl, ?_, ?_⟩
    · intro k hP
      rcases eq_or_ne k key with rfl | hne
      · rw [valueOf_insertKey_self hl, valueOf_insertKey_self hl']
      · rw [valueOf_insertKey_of_ne hl hne, valueOf_insertKey_of_ne hl' hne, h k hP]
    · exact fun k hP => valueOf_insertKey_of_ne hl fun heq => hP (heq ▸ hk)

lemma LocalTo.erase (hk : P key) : LocalTo check P (MapProgram.erase key : MapProgram K V ε _) := by
  intro l l' _ _ h
  refine Or.inr ⟨(valueOf key l).isSome, _, eraseKey key l', run_erase, ?_, ?_, ?_⟩
  · rw [run_erase, h key hk]
  · intro k hP
    rcases eq_or_ne k key with rfl | hne
    · rw [valueOf_eraseKey_self, valueOf_eraseKey_self]
    · rw [valueOf_eraseKey_of_ne l hne, valueOf_eraseKey_of_ne l' hne, h k hP]
  · exact fun k hP => valueOf_eraseKey_of_ne l fun heq => hP (heq ▸ hk)

lemma LocalTo.bind {p : MapProgram K V ε α} {f : α → MapProgram K V ε β} (hp : LocalTo check P p)
    (hf : ∀ a, LocalTo check P (f a)) : LocalTo check P (p >>= f) := by
  intro l l' hl hl' h
  obtain ⟨e, he, he'⟩ | ⟨a, m, m', hm, hm', hP, hrest⟩ := hp l l' hl hl' h
  · exact Or.inl ⟨e, by rw [run_bind, he]; rfl, by rw [run_bind, he']; rfl⟩
  · have hrun : (p >>= f).run check l = (f a).run check m := by
      rw [run_bind, hm]
      rfl
    have hrun' : (p >>= f).run check l' = (f a).run check m' := by
      rw [run_bind, hm']
      rfl
    rw [hrun, hrun']
    obtain herr | ⟨b, n, n', hn, hn', hP', hrest'⟩ :=
      hf a m m' (run_sorted hm hl) (run_sorted hm' hl') hP
    · exact Or.inl herr
    · exact Or.inr ⟨b, n, n', hn, hn', hP', fun k hk => (hrest' k hk).trans (hrest k hk)⟩

lemma LocalTo.mono {p : MapProgram K V ε α} (h : LocalTo check P p) (hPQ : ∀ k, P k → Q k) :
    LocalTo check Q p := by
  intro l l' hl hl' heq
  obtain herr | ⟨a, m, m', hm, hm', hP, hrest⟩ := h l l' hl hl' fun k hk => heq k (hPQ k hk)
  · exact Or.inl herr
  · refine Or.inr ⟨a, m, m', hm, hm', fun k hk => ?_, fun k hk => hrest k fun hP => hk (hPQ k hP)⟩
    by_cases hPk : P k
    · exact hP k hPk
    · rw [hrest k hPk, heq k hk, h.keeps hl' hm' hPk]

lemma FailsWith.pure (a : α) : FailsWith check E (Pure.pure a : MapProgram K V ε α) :=
  fun _ _ h => by cases h

lemma FailsWith.lift {x : Except ε α} (hx : ∀ e, x = .error e → E e) :
    FailsWith check E (liftM x : MapProgram K V ε α) := by
  intro l e h
  rw [run_lift] at h
  cases x with
  | error e' =>
    cases h
    exact hx e rfl
  | ok a => cases h

lemma FailsWith.read : FailsWith check E (MapProgram.read key : MapProgram K V ε _) :=
  fun _ _ h => by cases h

lemma FailsWith.readFrom : FailsWith check E (MapProgram.readFrom key : MapProgram K V ε _) :=
  fun _ _ h => by cases h

lemma FailsWith.erase : FailsWith check E (MapProgram.erase key : MapProgram K V ε _) :=
  fun _ _ h => by cases h

lemma FailsWith.write (hk : ∀ e, check key = .error e → E e) :
    FailsWith check E (MapProgram.write key value) := by
  intro l e h
  rw [run_write] at h
  cases hc : check key with
  | error e' =>
    rw [hc] at h
    cases h
    exact hk e hc
  | ok u =>
    rw [hc] at h
    cases h

lemma FailsWith.bind {p : MapProgram K V ε α} {f : α → MapProgram K V ε β}
    (hp : FailsWith check E p) (hf : ∀ a, FailsWith check E (f a)) :
    FailsWith check E (p >>= f) := by
  intro l e h
  rw [run_bind] at h
  cases hr : p.run check l with
  | error e' =>
    rw [hr] at h
    cases h
    exact hp l e hr
  | ok r =>
    rw [hr] at h
    exact hf r.1 r.2 e h

end Rules

/-! ### Partial correctness -/

section Triple
variable [LinearOrder K] (check : K → Except ε Unit) (W : V → Prop)

/-- From a map with the first property, a result and the map it leaves have the second one. -/
def Triple (P : List (K × V) → Prop) (p : MapProgram K V ε α) (Q : α → List (K × V) → Prop) : Prop :=
  ∀ l a m, P l → (∀ q ∈ p.inserted l, W q.2) → p.run check l = .ok (a, m) → Q a m

/-- The program keeps a property of the map. -/
def Keeps (I : List (K × V) → Prop) (p : MapProgram K V ε α) : Prop := Triple check W I p fun _ => I

/-- A result leaves the map as it was. -/
def ReadOnly (p : MapProgram K V ε α) : Prop := ∀ l a m, p.run check l = .ok (a, m) → m = l

variable {check W} {P I : List (K × V) → Prop} {Q : α → List (K × V) → Prop} {key : K} {value : V}

lemma run_bind_eq_ok {p : MapProgram K V ε α} {f : α → MapProgram K V ε β} {l m : List (K × V)}
    {b : β} : (p >>= f).run check l = .ok (b, m) ↔
      ∃ a l', p.run check l = .ok (a, l') ∧ (f a).run check l' = .ok (b, m) := by
  rw [run_bind]
  cases hr : p.run check l with
  | error e => exact ⟨fun h => (by cases h), fun ⟨_, _, h, _⟩ => (by cases h)⟩
  | ok r =>
    constructor
    · intro h
      exact ⟨r.1, r.2, rfl, h⟩
    · rintro ⟨a, l', h, hf⟩
      cases h
      exact hf

lemma run_lift_eq_ok {x : Except ε α} {l m : List (K × V)} {a : α} :
    (liftM x : MapProgram K V ε α).run check l = .ok (a, m) ↔ x = .ok a ∧ m = l := by
  cases x with
  | error e => exact ⟨fun h => (by cases h), fun h => (by cases h.1)⟩
  | ok b =>
    constructor
    · intro h
      cases h
      exact ⟨rfl, rfl⟩
    · rintro ⟨h, rfl⟩
      cases h
      rfl

lemma run_lift_bind_eq_ok {x : Except ε α} {f : α → MapProgram K V ε β} {l m : List (K × V)} {b : β} :
    ((liftM x : MapProgram K V ε α) >>= f).run check l = .ok (b, m) ↔
      ∃ a, x = .ok a ∧ (f a).run check l = .ok (b, m) := by
  rw [run_bind_eq_ok]
  constructor
  · rintro ⟨a, l', hx, hf⟩
    obtain ⟨hval, rfl⟩ := run_lift_eq_ok.1 hx
    exact ⟨a, hval, hf⟩
  · rintro ⟨a, hx, hf⟩
    exact ⟨a, l, run_lift_eq_ok.2 ⟨hx, rfl⟩, hf⟩

/-- What a run writes comes in two parts where it goes on. -/
lemma inserted_bind {p : MapProgram K V ε α} {f : α → MapProgram K V ε β} {l m : List (K × V)} {a : α}
    (h : p.run check l = .ok (a, m)) : (p >>= f).inserted l = p.inserted l ++ (f a).inserted m := by
  change (p.bind f).inserted l = _
  induction p generalizing l with
  | done b =>
    cases h
    rfl
  | fail e => cases h
  | get key next ih => exact ih _ h
  | scanFrom start next ih => exact ih _ h
  | insert key value next ih =>
    rw [run] at h
    cases hc : check key with
    | error e =>
      rw [hc] at h
      cases h
    | ok u =>
      rw [hc] at h
      rw [bind, inserted, ih h, inserted, List.cons_append]
  | delete key next ih => exact ih _ h

namespace Triple

lemma pure {a : α} (h : ∀ l, P l → Q a l) :
    Triple check W P (Pure.pure a : MapProgram K V ε α) Q := by
  intro l b m hP _ hr
  cases hr
  exact h l hP

lemma lift {x : Except ε α} (h : ∀ l a, P l → x = .ok a → Q a l) :
    Triple check W P (liftM x : MapProgram K V ε α) Q := by
  intro l a m hP _ hr
  obtain ⟨hx, rfl⟩ := run_lift_eq_ok.1 hr
  exact h m a hP hx

lemma bind {p : MapProgram K V ε α} {f : α → MapProgram K V ε β} {R : β → List (K × V) → Prop}
    (hp : Triple check W P p Q) (hf : ∀ a, Triple check W (Q a) (f a) R) :
    Triple check W P (p >>= f) R := by
  intro l b m hP hW hr
  obtain ⟨a, l', hrun, hr⟩ := run_bind_eq_ok.1 hr
  rw [inserted_bind hrun] at hW
  exact hf a l' b m (hp l a l' hP (fun q hq => hW q (List.mem_append_left _ hq)) hrun)
    (fun q hq => hW q (List.mem_append_right _ hq)) hr

/-- A weaker property before, a stronger one after. -/
lemma conseq {p : MapProgram K V ε α} {P' : List (K × V) → Prop} {Q' : α → List (K × V) → Prop}
    (h : Triple check W P p Q) (hP : ∀ l, P' l → P l) (hQ : ∀ a l, Q a l → Q' a l) :
    Triple check W P' p Q' := fun l a m hP' hW hr => hQ a m (h l a m (hP l hP') hW hr)

lemma read {Q : Option V → List (K × V) → Prop} (h : ∀ l, P l → Q (valueOf key l) l) :
    Triple check W P (MapProgram.read key : MapProgram K V ε _) Q := by
  intro l a m hP _ hr
  cases hr
  exact h l hP

lemma readFrom {Q : List (K × V) → List (K × V) → Prop} (h : ∀ l, P l → Q (fromKey key l) l) :
    Triple check W P (MapProgram.readFrom key : MapProgram K V ε _) Q := by
  intro l a m hP _ hr
  cases hr
  exact h l hP

lemma write {Q : Unit → List (K × V) → Prop}
    (h : ∀ l, P l → check key = .ok () → W value → Q () (insertKey key value l)) :
    Triple check W P (MapProgram.write key value) Q := by
  intro l a m hP hW hr
  rw [run_write] at hr
  cases hc : check key with
  | error e =>
    rw [hc] at hr
    cases hr
  | ok u =>
    rw [hc] at hr
    cases hr
    exact h l hP hc (hW (key, value) List.mem_cons_self)

lemma erase {Q : Bool → List (K × V) → Prop}
    (h : ∀ l, P l → Q (valueOf key l).isSome (eraseKey key l)) :
    Triple check W P (MapProgram.erase key : MapProgram K V ε _) Q := by
  intro l a m hP _ hr
  cases hr
  exact h l hP

/-- What the property before says apart from the map can be used. -/
lemma of_fact {p : MapProgram K V ε α} {φ : Prop} (hφ : ∀ l, P l → φ)
    (h : φ → Triple check W P p Q) : Triple check W P p Q :=
  fun l a m hP => h (hφ l hP) l a m hP

end Triple

namespace Keeps

lemma pure (a : α) : Keeps check W I (Pure.pure a : MapProgram K V ε α) := Triple.pure fun _ => id

lemma lift (x : Except ε α) : Keeps check W I (liftM x : MapProgram K V ε α) :=
  Triple.lift fun _ _ h _ => h

lemma bind {p : MapProgram K V ε α} {f : α → MapProgram K V ε β} (hp : Keeps check W I p)
    (hf : ∀ a, Keeps check W I (f a)) : Keeps check W I (p >>= f) := Triple.bind hp hf

end Keeps

namespace ReadOnly

lemma pure (a : α) : ReadOnly check (Pure.pure a : MapProgram K V ε α) := fun l b m h => by
  cases h
  rfl

lemma lift (x : Except ε α) : ReadOnly check (liftM x : MapProgram K V ε α) :=
  fun _ _ _ h => (run_lift_eq_ok.1 h).2

lemma read : ReadOnly check (MapProgram.read key : MapProgram K V ε _) := fun l b m h => by
  cases h
  rfl

lemma readFrom : ReadOnly check (MapProgram.readFrom key : MapProgram K V ε _) := fun l b m h => by
  cases h
  rfl

lemma bind {p : MapProgram K V ε α} {f : α → MapProgram K V ε β} (hp : ReadOnly check p)
    (hf : ∀ a, ReadOnly check (f a)) : ReadOnly check (p >>= f) := by
  intro l b m h
  obtain ⟨a, l', hr, h⟩ := run_bind_eq_ok.1 h
  rw [hf a l' b m h, hp l a l' hr]

/-- What is read is the same in a map that agrees on the keys. -/
lemma run_congr {P : K → Prop} {p : MapProgram K V ε α} (hread : ReadOnly check p)
    (hp : LocalTo check P p) {l l' : List (K × V)} {a : α} (hl : SortedMap l) (hl' : SortedMap l')
    (heq : ∀ k, P k → valueOf k l = valueOf k l') (hr : p.run check l = .ok (a, l)) :
    p.run check l' = .ok (a, l') := by
  rcases hp l l' hl hl' heq with ⟨e, he, -⟩ | ⟨b, m, m', hm, hm', -⟩
  · rw [hr] at he
    cases he
  · rw [hr] at hm
    cases hm
    rw [hm', hread l' a m' hm']

/-- Reading keeps every property. -/
lemma keeps {p : MapProgram K V ε α} (h : ReadOnly check p) : Keeps check W I p :=
  fun l a m hI _ hr => h l a m hr ▸ hI

end ReadOnly

end Triple

end MapProgram

end Arkeion.Lib

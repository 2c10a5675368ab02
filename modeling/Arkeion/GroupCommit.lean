import Arkeion.Commit
import Mathlib.Logic.Relation
import Mathlib.Logic.Function.Basic

/-!
Group commit: concurrent committers share the fsync of one leader.

A committer writes its pages while it holds the writer gate, raises the mark of what is
written, gives the gate back and calls `make_durable`. There it returns when its version is
durable, waits while a sync is in progress, or becomes the leader: it captures the mark and
syncs everything up to it. A step is what one committer does under one lock, or one call
into the file; the steps of all committers interleave.
-/

namespace Arkeion

/-- What the mutex of the group protects. -/
structure SyncProgress where
  in_progress : Bool
  durable_version : ℕ
  written_version : ℕ
  written_head : Head
  deriving DecidableEq, Repr

namespace SyncProgress

def new (head : Head) : SyncProgress where
  in_progress := false
  durable_version := head.version
  written_version := head.version
  written_head := head

def markWritten (p : SyncProgress) (head : Head) : SyncProgress :=
  if head.version ≥ p.written_version then
    { p with written_version := head.version, written_head := head }
  else p

/-- How a turn of the loop of `make_durable` ends. -/
inductive Turn where
  /-- `Ok`: a leader has made the version durable -/
  | ret
  /-- into the condition variable -/
  | wait
  /-- on to the sync, as the leader, for everything up to the target -/
  | lead (target : Head) (p : SyncProgress)
  deriving DecidableEq, Repr

/-- One turn of the loop, with the mutex held. -/
def turn (p : SyncProgress) (version : ℕ) : Turn :=
  if p.durable_version ≥ version then .ret
  else if p.in_progress then .wait
  else .lead p.written_head { p with in_progress := true }

/-- What the leader leaves when it has the mutex again. -/
def finish (p : SyncProgress) (target : ℕ) (ok : Bool) : SyncProgress :=
  { p with
    in_progress := false
    durable_version :=
      if ok ∧ target > p.durable_version then target else p.durable_version }

end SyncProgress

/-- Where a committer is. -/
inductive Phase where
  | idle
  /-- it holds the gate and has pages in memory only, over `base` -/
  | begun (base : Head)
  /-- its pages are in the file -/
  | wrote (head : Head)
  /-- its head is the head of the store -/
  | published (head : Head)
  /-- `mark_written` is done; it still holds the gate -/
  | marked (head : Head)
  /-- at the mutex of `make_durable`, for a turn of the loop -/
  | ready (version : ℕ)
  /-- in the condition variable -/
  | waiting (version : ℕ)
  /-- leader, about to sync -/
  | leading (version : ℕ) (target : Head)
  /-- in the fsync; `covers` are the versions that were in the file when it started -/
  | syncing (version : ℕ) (target : Head) (covers : List ℕ)
  /-- the fsync is complete, the meta slot not yet written -/
  | synced (version : ℕ) (target : Head)
  /-- out of the file, at the mutex again -/
  | finishing (version : ℕ) (target : Head) (ok : Bool)
  /-- `make_durable` returned `Ok` -/
  | done (version : ℕ)
  /-- the attempt ended without making anything durable -/
  | failed
  deriving DecidableEq, Repr

namespace Phase

/-- The committer is not inside a commit. -/
def Resting : Phase → Prop
  | idle | done _ | failed => True
  | _ => False

/-- It is the leader: from taking the lead to finishing. -/
def Leads : Phase → Prop
  | leading _ _ | syncing _ _ _ | synced _ _ | finishing _ _ _ => True
  | _ => False

/-- `notify_all` wakes those in the condition variable. -/
def wake : Phase → Phase
  | waiting v => ready v
  | p => p

end Phase

/-- The shared state and the phase of every committer. The last three fields only record
what has happened: the versions whose pages were written, what the completed fsyncs had
covered, and who leads. -/
structure GroupState (Tid : Type) where
  gate : Option Tid
  head : Head
  sync : SyncProgress
  slots : List MetaSlot
  phase : Tid → Phase
  onFile : List ℕ
  completed : List (List ℕ)
  leader : Option Tid

namespace GroupState
variable {Tid : Type} [DecidableEq Tid]

/-- After opening at `head`. -/
def init (head : Head) : GroupState Tid where
  gate := none
  head := head
  sync := .new head
  slots := []
  phase := fun _ => .idle
  onFile := []
  completed := []
  leader := none

/-- `t` goes to phase `p`. -/
def goto (s : GroupState Tid) (t : Tid) (p : Phase) : GroupState Tid :=
  { s with phase := Function.update s.phase t p }

/-- A turn of the loop of `make_durable`, with the mutex held. -/
def takeTurn (s : GroupState Tid) (t : Tid) (v : ℕ) : GroupState Tid :=
  match s.sync.turn v with
  | .ret => s.goto t (.done v)
  | .wait => s.goto t (.waiting v)
  | .lead target p => { s with sync := p, leader := some t }.goto t (.leading v target)

/-- The end of a sync: the progress is noted and everybody waiting is woken. -/
def wakeAll (s : GroupState Tid) (target : ℕ) (ok : Bool) : GroupState Tid :=
  { s with
    sync := s.sync.finish target ok
    leader := none
    phase := fun u => (s.phase u).wake }

/-- One step of one committer. -/
inductive Step : GroupState Tid → GroupState Tid → Prop
  | acquire {s : GroupState Tid} (t : Tid) : s.gate = none → (s.phase t).Resting →
      Step s ({ s with gate := some t }.goto t (.begun s.head))
  /-- rollback, nothing to commit, or an error while pages were written: dropping the
  transaction frees the gate -/
  | drop {s : GroupState Tid} (t : Tid) {base : Head} : s.phase t = .begun base →
      Step s ({ s with gate := none }.goto t .failed)
  | write {s : GroupState Tid} (t : Tid) {base h : Head} : s.phase t = .begun base →
      h.version = base.version + 1 →
      Step s ({ s with onFile := h.version :: s.onFile }.goto t (.wrote h))
  | publish {s : GroupState Tid} (t : Tid) {h : Head} : s.phase t = .wrote h →
      Step s ({ s with head := h }.goto t (.published h))
  | mark {s : GroupState Tid} (t : Tid) {h : Head} : s.phase t = .published h →
      Step s ({ s with sync := s.sync.markWritten h }.goto t (.marked h))
  | release {s : GroupState Tid} (t : Tid) {h : Head} : s.phase t = .marked h →
      Step s ({ s with gate := none }.goto t (.ready h.version))
  | turn {s : GroupState Tid} (t : Tid) {v : ℕ} : s.phase t = .ready v → Step s (s.takeTurn t v)
  /-- a condition variable may wake a thread without a notification -/
  | spurious {s : GroupState Tid} (t : Tid) {v : ℕ} : s.phase t = .waiting v →
      Step s (s.goto t (.ready v))
  | startSync {s : GroupState Tid} (t : Tid) {v : ℕ} {target : Head} :
      s.phase t = .leading v target → Step s (s.goto t (.syncing v target s.onFile))
  | syncOk {s : GroupState Tid} (t : Tid) {v : ℕ} {target : Head} {covers : List ℕ} :
      s.phase t = .syncing v target covers →
      Step s ({ s with completed := covers :: s.completed }.goto t (.synced v target))
  | syncErr {s : GroupState Tid} (t : Tid) {v : ℕ} {target : Head} {covers : List ℕ} :
      s.phase t = .syncing v target covers → Step s (s.goto t (.finishing v target false))
  | metaOk {s : GroupState Tid} (t : Tid) {v : ℕ} {target : Head} :
      s.phase t = .synced v target →
      Step s ({ s with slots := metaFor target :: s.slots }.goto t (.finishing v target true))
  | metaErr {s : GroupState Tid} (t : Tid) {v : ℕ} {target : Head} :
      s.phase t = .synced v target → Step s (s.goto t (.finishing v target false))
  /-- the leader has the mutex again: it wakes all, and loops or returns the error -/
  | finish {s : GroupState Tid} (t : Tid) {v : ℕ} {target : Head} {ok : Bool} :
      s.phase t = .finishing v target ok →
      Step s (if ok then (s.wakeAll target.version ok).takeTurn t v
        else (s.wakeAll target.version ok).goto t .failed)

/-- The states the committers can bring a store opened at `head` to. -/
def Reachable (head : Head) (s : GroupState Tid) : Prop :=
  Relation.ReflTransGen Step (init head) s

/-! ### The invariant -/

/-- A completed fsync had started after every version after `base` up to `v` was written. -/
def CoveredTo (s : GroupState Tid) (base v : ℕ) : Prop :=
  ∃ c ∈ s.completed, ∀ u, base < u → u ≤ v → u ∈ c

/-- What holds of a committer in a phase. -/
def PhaseOk (s : GroupState Tid) (base : ℕ) (t : Tid) : Phase → Prop
  | .idle | .failed => True
  | .begun b => s.gate = some t ∧ b = s.head ∧ s.head.version = s.sync.written_version
  | .wrote h => s.gate = some t ∧ h.version = s.head.version + 1 ∧
      s.head.version = s.sync.written_version ∧ h.version ∈ s.onFile
  | .published h => s.gate = some t ∧ h = s.head ∧ h.version = s.sync.written_version + 1
  | .marked h => s.gate = some t ∧ h = s.head ∧ h.version = s.sync.written_version ∧
      base < h.version
  | .ready v => base < v ∧ v ≤ s.sync.written_version
  | .waiting v => base < v ∧ v ≤ s.sync.written_version ∧ s.sync.in_progress = true
  | .leading v target => base < v ∧ v ≤ s.sync.written_version ∧ s.leader = some t ∧
      target.version ≤ s.sync.written_version
  | .syncing v target covers => base < v ∧ v ≤ s.sync.written_version ∧ s.leader = some t ∧
      target.version ≤ s.sync.written_version ∧ ∀ u, base < u → u ≤ target.version → u ∈ covers
  | .synced v target => base < v ∧ v ≤ s.sync.written_version ∧ s.leader = some t ∧
      target.version ≤ s.sync.written_version ∧ s.CoveredTo base target.version
  | .finishing v target ok => base < v ∧ v ≤ s.sync.written_version ∧ s.leader = some t ∧
      target.version ≤ s.sync.written_version ∧ (ok = true → s.CoveredTo base target.version)
  | .done v => ∃ c ∈ s.completed, v ∈ c

/-- What holds of the shared state. -/
structure SharedOk (base : ℕ) (s : GroupState Tid) : Prop where
  in_progress : s.sync.in_progress = true ↔ s.leader.isSome
  gate_free : s.gate = none → s.head.version = s.sync.written_version
  on_file : ∀ u, base < u → u ≤ s.head.version → u ∈ s.onFile
  base_le : base ≤ s.sync.written_version
  written_le : s.sync.written_version ≤ s.head.version
  written_head : s.sync.written_head.version = s.sync.written_version
  durable_le : s.sync.durable_version ≤ s.sync.written_version
  base_durable : base ≤ s.sync.durable_version
  durable : s.sync.durable_version = base ∨ s.CoveredTo base s.sync.durable_version

structure Inv (base : ℕ) (s : GroupState Tid) : Prop extends SharedOk base s where
  phase_ok : ∀ t, s.PhaseOk base t (s.phase t)
  leads : ∀ t, s.leader = some t → (s.phase t).Leads

section Invariant
variable {s s' : GroupState Tid} {base : ℕ} {t u : Tid} {p : Phase} {v : ℕ}

@[simp] lemma goto_phaseOk : (s.goto t p).PhaseOk base u = s.PhaseOk base u := by
  funext q
  cases q <;> rfl

@[simp] lemma goto_self : (s.goto t p).phase t = p := Function.update_self ..

lemma goto_of_ne (h : u ≠ t) : (s.goto t p).phase u = s.phase u := Function.update_of_ne h ..

omit [DecidableEq Tid] in
lemma CoveredTo.mono (h : s.CoveredTo base v) (hc : ∀ c ∈ s.completed, c ∈ s'.completed) :
    s'.CoveredTo base v := by
  obtain ⟨c, hm, hcov⟩ := h
  exact ⟨c, hc c hm, hcov⟩

omit [DecidableEq Tid] in
/-- What holds of a committer still holds after a step of another one: the other one has the
gate or the lead only if this one has not. -/
lemma PhaseOk.mono (h : s.PhaseOk base t p)
    (hg : s.gate = some t → s'.gate = some t ∧ s'.head = s.head ∧
      s'.sync.written_version = s.sync.written_version)
    (hw : s.sync.written_version ≤ s'.sync.written_version)
    (hf : ∀ v ∈ s.onFile, v ∈ s'.onFile) (hc : ∀ c ∈ s.completed, c ∈ s'.completed)
    (hl : s.leader = some t → s'.leader = some t)
    (hp : (∃ v, p = .waiting v) → s'.sync.in_progress = true) : s'.PhaseOk base t p := by
  cases p with
  | idle => trivial
  | failed => trivial
  | begun b =>
    obtain ⟨h1, h2, h3⟩ := h
    obtain ⟨g1, g2, g3⟩ := hg h1
    exact ⟨g1, by rw [g2]; exact h2, by rw [g2, g3]; exact h3⟩
  | wrote hd =>
    obtain ⟨h1, h2, h3, h4⟩ := h
    obtain ⟨g1, g2, g3⟩ := hg h1
    exact ⟨g1, by rw [g2]; exact h2, by rw [g2, g3]; exact h3, hf _ h4⟩
  | published hd =>
    obtain ⟨h1, h2, h3⟩ := h
    obtain ⟨g1, g2, g3⟩ := hg h1
    exact ⟨g1, by rw [g2]; exact h2, by rw [g3]; exact h3⟩
  | marked hd =>
    obtain ⟨h1, h2, h3, h4⟩ := h
    obtain ⟨g1, g2, g3⟩ := hg h1
    exact ⟨g1, by rw [g2]; exact h2, by rw [g3]; exact h3, h4⟩
  | ready v => exact ⟨h.1, h.2.trans hw⟩
  | waiting v => exact ⟨h.1, h.2.1.trans hw, hp ⟨v, rfl⟩⟩
  | leading v target =>
    obtain ⟨h1, h2, h3, h4⟩ := h
    exact ⟨h1, h2.trans hw, hl h3, h4.trans hw⟩
  | syncing v target covers =>
    obtain ⟨h1, h2, h3, h4, h5⟩ := h
    exact ⟨h1, h2.trans hw, hl h3, h4.trans hw, h5⟩
  | synced v target =>
    obtain ⟨h1, h2, h3, h4, h5⟩ := h
    exact ⟨h1, h2.trans hw, hl h3, h4.trans hw, h5.mono hc⟩
  | finishing v target ok =>
    obtain ⟨h1, h2, h3, h4, h5⟩ := h
    exact ⟨h1, h2.trans hw, hl h3, h4.trans hw, fun ho => (h5 ho).mono hc⟩
  | done v =>
    obtain ⟨c, hm, hv⟩ := h
    exact ⟨c, hc c hm, hv⟩

omit [DecidableEq Tid] in
/-- A phase that is woken asks nothing of `in_progress`. -/
lemma PhaseOk.wake (h : s.PhaseOk base t p) : s.PhaseOk base t p.wake := by
  cases p with
  | waiting v => exact ⟨h.1, h.2.1⟩
  | _ => exact h

lemma wake_ne_waiting : p.wake ≠ .waiting v := by
  cases p <;> simp [Phase.wake]

lemma SharedOk.goto (h : SharedOk base s) : SharedOk base (s.goto t p) where
  in_progress := h.in_progress
  gate_free := h.gate_free
  on_file := h.on_file
  base_le := h.base_le
  written_le := h.written_le
  written_head := h.written_head
  durable_le := h.durable_le
  base_durable := h.base_durable
  durable := h.durable

/-- `t` changes the shared state and its own phase. -/
lemma Inv.move (h : Inv base s) (hs : SharedOk base s') (hphase : s'.phase = s.phase)
    (ho : ∀ u, u ≠ t → s'.PhaseOk base u (s.phase u)) (hp : s'.PhaseOk base t p)
    (hl : ∀ u, s'.leader = some u → u = t ∧ p.Leads ∨ s.leader = some u ∧ u ≠ t) :
    Inv base (s'.goto t p) := by
  refine { hs.goto with phase_ok := fun u => ?_, leads := fun u hu => ?_ }
  · rw [goto_phaseOk]
    rcases eq_or_ne u t with rfl | hu
    · rw [goto_self]; exact hp
    · rw [goto_of_ne hu, hphase]; exact ho u hu
  · rcases hl u hu with ⟨rfl, hlead⟩ | ⟨hu, hne⟩
    · rw [goto_self]; exact hlead
    · rw [goto_of_ne hne, hphase]; exact h.leads u hu

omit [DecidableEq Tid] in
/-- Who does not lead keeps the leader what it was. -/
lemma Inv.other_leads (h : Inv base s) (ht : ¬ (s.phase t).Leads) {u : Tid}
    (hu : s.leader = some u) : u = t ∧ p.Leads ∨ s.leader = some u ∧ u ≠ t := by
  refine Or.inr ⟨hu, ?_⟩
  rintro rfl
  exact ht (h.leads u hu)

omit [DecidableEq Tid] in
/-- A waiting committer has seen a sync in progress. -/
lemma Inv.of_waiting (h : Inv base s) (hu : ∃ v, s.phase u = .waiting v) :
    s.sync.in_progress = true := by
  obtain ⟨v, hv⟩ := hu
  have := h.phase_ok u
  rw [hv] at this
  exact this.2.2

/-- The phase of `t` changes, and nothing else. -/
lemma Inv.goto (h : Inv base s) (hp : s.PhaseOk base t p)
    (hl : (s.phase t).Leads → p.Leads) : Inv base (s.goto t p) := by
  refine h.move h.toSharedOk rfl (fun u _ => h.phase_ok u) hp fun u hu => ?_
  rcases eq_or_ne u t with rfl | hne
  · exact Or.inl ⟨rfl, hl (h.leads u hu)⟩
  · exact Or.inr ⟨hu, hne⟩

lemma Inv.acquire (h : Inv base s) (hg : s.gate = none) (hr : (s.phase t).Resting) :
    Inv base ({ s with gate := some t }.goto t (.begun s.head)) := by
  have hnl : ¬ (s.phase t).Leads := by
    revert hr
    cases s.phase t <;> simp [Phase.Resting, Phase.Leads]
  refine h.move { h.toSharedOk with gate_free := by simp } rfl (fun u hu => ?_)
    ⟨rfl, rfl, h.gate_free hg⟩ fun u => h.other_leads hnl
  exact (h.phase_ok u).mono (by simp [hg]) le_rfl (fun _ => id) (fun _ => id) id h.of_waiting

section Gate
variable (hgate : s.gate = some t)
include hgate

omit [DecidableEq Tid] in
/-- The other committers have not the gate. -/
lemma gate_other (hu : u ≠ t) (h : s.gate = some u) : False := by
  rw [hgate] at h
  exact hu (Option.some.inj h).symm

/-- The holder of the gate gives it back. -/
lemma Inv.giveBack (h : Inv base s) (hnl : ¬ (s.phase t).Leads)
    (hv : s.head.version = s.sync.written_version)
    (hp : { s with gate := none }.PhaseOk base t p) :
    Inv base ({ s with gate := none }.goto t p) := by
  refine h.move { h.toSharedOk with gate_free := fun _ => hv } rfl (fun u hu => ?_) hp
    fun u => h.other_leads hnl
  exact (h.phase_ok u).mono (fun hg => (gate_other hgate hu hg).elim) le_rfl (fun _ => id)
    (fun _ => id) id h.of_waiting

lemma Inv.write (h : Inv base s) {hd : Head} (hph : s.phase t = .begun s.head)
    (hv : hd.version = s.head.version + 1) (hw : s.head.version = s.sync.written_version) :
    Inv base ({ s with onFile := hd.version :: s.onFile }.goto t (.wrote hd)) := by
  have hnl : ¬ (s.phase t).Leads := by simp [hph, Phase.Leads]
  refine h.move { h.toSharedOk with
      on_file := fun u h1 h2 => List.mem_cons_of_mem _ (h.on_file u h1 h2) } rfl
    (fun u hu => ?_) ⟨hgate, hv, hw, by simp⟩ fun u => h.other_leads hnl
  exact (h.phase_ok u).mono (fun hg => (gate_other hgate hu hg).elim) le_rfl
    (fun _ => List.mem_cons_of_mem _) (fun _ => id) id h.of_waiting

lemma Inv.publish (h : Inv base s) {hd : Head} (hph : s.phase t = .wrote hd)
    (hv : hd.version = s.head.version + 1) (hw : s.head.version = s.sync.written_version)
    (hf : hd.version ∈ s.onFile) :
    Inv base ({ s with head := hd }.goto t (.published hd)) := by
  have hnl : ¬ (s.phase t).Leads := by simp [hph, Phase.Leads]
  refine h.move
    { h.toSharedOk with
      gate_free := by simp [hgate]
      on_file := fun u h1 h2 => ?_
      written_le := h.written_le.trans (by simp only [hv]; omega) } rfl
    (fun u hu => ?_) ⟨hgate, rfl, by rw [hv, hw]⟩ fun u => h.other_leads hnl
  · rcases Nat.lt_or_ge s.head.version u with hlt | hle
    · have : u = hd.version := by simp only at h2; omega
      rw [this]; exact hf
    · exact h.on_file u h1 hle
  · exact (h.phase_ok u).mono (fun hg => (gate_other hgate hu hg).elim) le_rfl
      (fun _ => id) (fun _ => id) id h.of_waiting

lemma Inv.mark (h : Inv base s) {hd : Head} (hph : s.phase t = .published hd)
    (hh : hd = s.head) (hv : hd.version = s.sync.written_version + 1) :
    Inv base ({ s with sync := s.sync.markWritten hd }.goto t (.marked hd)) := by
  have hnl : ¬ (s.phase t).Leads := by simp [hph, Phase.Leads]
  have hbase := h.base_le
  have hmark : s.sync.markWritten hd
      = { s.sync with written_version := hd.version, written_head := hd } := by
    rw [SyncProgress.markWritten, if_pos (by omega)]
  rw [hmark]
  refine h.move
    { h.toSharedOk with
      gate_free := by simp [hgate]
      base_le := by simp only; omega
      written_le := by simp only [hh]; omega
      written_head := rfl
      durable_le := by have := h.durable_le; simp only; omega } rfl
    (fun u hu => ?_) ⟨hgate, hh, rfl, by omega⟩ fun u => h.other_leads hnl
  exact (h.phase_ok u).mono (fun hg => (gate_other hgate hu hg).elim) (by simp only; omega)
    (fun _ => id) (fun _ => id) id h.of_waiting

end Gate

lemma Inv.takeTurn (h : Inv base s) (hph : s.phase t = .ready v) :
    Inv base (s.takeTurn t v) := by
  have hok := h.phase_ok t
  rw [hph] at hok
  have hnl : ¬ (s.phase t).Leads := by simp [hph, Phase.Leads]
  by_cases hd : s.sync.durable_version ≥ v
  · -- durable: some completed fsync covers everything up to `durable_version`
    have hturn : s.sync.turn v = .ret := by rw [SyncProgress.turn, if_pos hd]
    rw [GroupState.takeTurn, hturn]
    refine h.goto ?_ fun hl => absurd hl hnl
    rcases h.durable with hb | ⟨c, hc, hcov⟩
    · have := hok.1; omega
    · exact ⟨c, hc, hcov v hok.1 hd⟩
  · by_cases hp : s.sync.in_progress = true
    · have hturn : s.sync.turn v = .wait := by rw [SyncProgress.turn, if_neg hd, if_pos hp]
      rw [GroupState.takeTurn, hturn]
      exact h.goto ⟨hok.1, hok.2, hp⟩ fun hl => absurd hl hnl
    · have hturn : s.sync.turn v = .lead s.sync.written_head { s.sync with in_progress := true } := by
        rw [SyncProgress.turn, if_neg hd, if_neg hp]
      have hnone : s.leader = none := by
        rw [h.in_progress] at hp
        simpa using hp
      rw [GroupState.takeTurn, hturn]
      refine h.move { h.toSharedOk with in_progress := by simp } rfl (fun u hu => ?_)
        ⟨hok.1, hok.2, rfl, by simp only [h.written_head]; exact le_rfl⟩
        fun u hu => Or.inl ⟨(Option.some.inj hu).symm, trivial⟩
      exact (h.phase_ok u).mono (fun hg => ⟨hg, rfl, rfl⟩) le_rfl (fun _ => id) (fun _ => id)
        (by simp [hnone]) fun _ => rfl

/-- The leader has the mutex again: nobody leads and nobody waits. -/
lemma Inv.wakeAll (h : Inv base s) {target : Head} {ok : Bool}
    (hph : s.phase t = .finishing v target ok) :
    Inv base ((s.wakeAll target.version ok).goto t (.ready v)) := by
  obtain ⟨hb, hv, hl, ht, hcov⟩ := by
    have := h.phase_ok t
    rw [hph] at this
    exact this
  have hshared : SharedOk base (s.wakeAll target.version ok) :=
    { in_progress := by simp [GroupState.wakeAll, SyncProgress.finish]
      gate_free := h.gate_free
      on_file := h.on_file
      base_le := h.base_le
      written_le := h.written_le
      written_head := h.written_head
      durable_le := by
        have := h.durable_le
        simp only [GroupState.wakeAll, SyncProgress.finish]
        split <;> omega
      base_durable := by
        have := h.base_durable
        simp only [GroupState.wakeAll, SyncProgress.finish]
        split <;> omega
      durable := by
        simp only [GroupState.wakeAll, SyncProgress.finish]
        split
        · rename_i hd
          exact Or.inr (hcov hd.1)
        · exact h.durable }
  refine { hshared.goto with phase_ok := fun u => ?_, leads := fun u hu => ?_ }
  · rw [goto_phaseOk]
    rcases eq_or_ne u t with rfl | hu
    · rw [goto_self]; exact ⟨hb, hv⟩
    · rw [goto_of_ne hu]
      refine PhaseOk.mono (h.phase_ok u).wake (fun hg => ⟨hg, rfl, rfl⟩) le_rfl (fun _ => id)
        (fun _ => id) (fun hl' => ?_) fun ⟨w, hw⟩ => absurd hw wake_ne_waiting
      exact absurd (Option.some.inj (hl.symm.trans hl')).symm hu
  · cases hu

lemma goto_takeTurn (v : ℕ) : (s.goto t p).takeTurn t v = s.takeTurn t v := by
  have hs : (s.goto t p).sync = s.sync := rfl
  simp only [GroupState.takeTurn, hs]
  split <;> simp [GroupState.goto]

lemma goto_goto (q : Phase) : (s.goto t p).goto t q = s.goto t q := by
  simp [GroupState.goto]

/-- Every step keeps the invariant. -/
theorem Inv.step (h : Inv base s) (hstep : Step s s') : Inv base s' := by
  cases hstep with
  | acquire t hg hr => exact h.acquire hg hr
  | drop t hph =>
    have hok := h.phase_ok t
    rw [hph] at hok
    exact h.giveBack hok.1 (by simp [hph, Phase.Leads]) hok.2.2 trivial
  | write t hph hv =>
    have hok := h.phase_ok t
    rw [hph] at hok
    obtain ⟨hg, rfl, hw⟩ := hok
    exact h.write hg hph hv hw
  | publish t hph =>
    have hok := h.phase_ok t
    rw [hph] at hok
    exact h.publish hok.1 hph hok.2.1 hok.2.2.1 hok.2.2.2
  | mark t hph =>
    have hok := h.phase_ok t
    rw [hph] at hok
    exact h.mark hok.1 hph hok.2.1 hok.2.2
  | release t hph =>
    have hok := h.phase_ok t
    rw [hph] at hok
    obtain ⟨hg, hh, hv, hb⟩ := hok
    exact h.giveBack hg (by simp [hph, Phase.Leads]) (by rw [← hh, hv]) ⟨hb, hv.le⟩
  | turn t hph => exact h.takeTurn hph
  | spurious t hph =>
    have hok := h.phase_ok t
    rw [hph] at hok
    exact h.goto ⟨hok.1, hok.2.1⟩ (by simp [hph, Phase.Leads])
  | startSync t hph =>
    have hok := h.phase_ok t
    rw [hph] at hok
    obtain ⟨hb, hv, hl, ht⟩ := hok
    exact h.goto ⟨hb, hv, hl, ht, fun u h1 h2 => h.on_file u h1 (by have := h.written_le; omega)⟩
      fun _ => trivial
  | @syncOk t v target covers hph =>
    have hok := h.phase_ok t
    rw [hph] at hok
    obtain ⟨hb, hv, hl, ht, hc⟩ := hok
    have hcov {k : ℕ} (hk : s.CoveredTo base k) :
        { s with completed := covers :: s.completed }.CoveredTo base k :=
      hk.mono fun c => List.mem_cons_of_mem _
    refine h.move { h.toSharedOk with durable := h.durable.imp id hcov } rfl (fun u _ => ?_)
      ⟨hb, hv, hl, ht, covers, by simp, hc⟩ fun u hu => ?_
    · exact (h.phase_ok u).mono (fun hg => ⟨hg, rfl, rfl⟩) le_rfl (fun _ => id)
        (fun _ => List.mem_cons_of_mem _) id h.of_waiting
    · exact Or.inl ⟨(Option.some.inj (hl.symm.trans hu)).symm, trivial⟩
  | syncErr t hph =>
    have hok := h.phase_ok t
    rw [hph] at hok
    obtain ⟨hb, hv, hl, ht, -⟩ := hok
    exact h.goto ⟨hb, hv, hl, ht, by simp⟩ fun _ => trivial
  | metaOk t hph =>
    have hok := h.phase_ok t
    rw [hph] at hok
    obtain ⟨hb, hv, hl, ht, hc⟩ := hok
    refine h.move { h.toSharedOk with } rfl (fun u _ => ?_) ⟨hb, hv, hl, ht, fun _ => hc⟩
      fun u hu => ?_
    · exact (h.phase_ok u).mono (fun hg => ⟨hg, rfl, rfl⟩) le_rfl (fun _ => id)
        (fun _ => id) id h.of_waiting
    · exact Or.inl ⟨(Option.some.inj (hl.symm.trans hu)).symm, trivial⟩
  | metaErr t hph =>
    have hok := h.phase_ok t
    rw [hph] at hok
    obtain ⟨hb, hv, hl, ht, -⟩ := hok
    exact h.goto ⟨hb, hv, hl, ht, by simp⟩ fun _ => trivial
  | @finish t v target ok hph =>
    have hw := h.wakeAll hph
    cases ok with
    | true =>
      have := hw.takeTurn goto_self
      rwa [goto_takeTurn] at this
    | false =>
      have := hw.goto (p := .failed) (t := t) trivial (by simp [Phase.Leads])
      rwa [goto_goto] at this

omit [DecidableEq Tid] in
lemma Inv.init (head : Head) : Inv head.version (init head : GroupState Tid) where
  in_progress := by simp [GroupState.init, SyncProgress.new]
  gate_free := fun _ => rfl
  on_file := fun u h1 h2 => absurd h1 (Nat.not_lt.2 h2)
  base_le := le_rfl
  written_le := le_rfl
  written_head := rfl
  durable_le := le_rfl
  base_durable := le_rfl
  durable := Or.inl rfl
  phase_ok := fun _ => trivial
  leads := fun t ht => by cases ht

theorem Reachable.inv {head : Head} (h : Reachable head s) : Inv head.version s := by
  have hr : Relation.ReflTransGen Step (GroupState.init head) s := h
  clear h
  induction hr with
  | refl => exact .init head
  | tail _ hstep ih => exact ih.step hstep

omit [DecidableEq Tid] in
lemma Inv.leader_of_leads (h : Inv base s) (ht : (s.phase t).Leads) : s.leader = some t := by
  have hok := h.phase_ok t
  revert ht hok
  cases s.phase t with
  | leading v target => exact fun _ hok => hok.2.2.1
  | syncing v target covers => exact fun _ hok => hok.2.2.1
  | synced v target => exact fun _ hok => hok.2.2.1
  | finishing v target ok => exact fun _ hok => hok.2.2.1
  | _ => exact fun ht => ht.elim

end Invariant

/-- In every state the committers can reach: the durable version is the one the store was
opened at, or was in the file before some completed fsync started; a call of `make_durable`
that returned `Ok` was covered by such an fsync; one committer at a time is in the fsync;
and while none is, none waits: who waits, waits for a leader that will wake it. -/
theorem group_commit {head : Head} {s : GroupState Tid} (h : Reachable head s) :
    (s.sync.durable_version = head.version ∨ ∃ c ∈ s.completed, s.sync.durable_version ∈ c) ∧
      (∀ t v, s.phase t = .done v → ∃ c ∈ s.completed, v ∈ c) ∧
      (∀ t u, (s.phase t).Leads → (s.phase u).Leads → t = u) ∧
      (s.sync.in_progress = false → ∀ t v, s.phase t ≠ .waiting v) ∧
      ∀ t v, s.phase t = .waiting v → ∃ u, (s.phase u).Leads := by
  have hinv := h.inv
  refine ⟨?_, ?_, ?_, ?_, ?_⟩
  · rcases hinv.durable with hb | ⟨c, hc, hcov⟩
    · exact Or.inl hb
    · rcases Nat.lt_or_ge head.version s.sync.durable_version with hlt | hge
      · exact Or.inr ⟨c, hc, hcov _ hlt le_rfl⟩
      · exact Or.inl (le_antisymm hge hinv.base_durable)
  · intro t v ht
    have := hinv.phase_ok t
    rwa [ht] at this
  · intro t u ht hu
    exact Option.some.inj ((hinv.leader_of_leads ht).symm.trans (hinv.leader_of_leads hu))
  · intro hp t v ht
    rw [hinv.of_waiting ⟨v, ht⟩] at hp
    cases hp
  · intro t v ht
    have hp := hinv.of_waiting ⟨v, ht⟩
    rw [hinv.in_progress, Option.isSome_iff_exists] at hp
    obtain ⟨u, hu⟩ := hp
    exact ⟨u, hinv.leads u hu⟩

/-! ### A committer that leads while another one waits -/

namespace Sample

def head (v : ℕ) : Head := ⟨v, 0, 0, 0, [], 0, FIRST_DATA_PAGE⟩

/-- `t` begins over version `v`, writes version `v + 1` and gives the gate back. -/
def written (s : GroupState Bool) (t : Bool) (v : ℕ) : GroupState Bool :=
  { s with
    gate := none
    head := head (v + 1)
    sync := s.sync.markWritten (head (v + 1))
    onFile := (v + 1) :: s.onFile }.goto t (.ready (v + 1))

lemma reaches_written {s : GroupState Bool} {t : Bool} {v : ℕ} (hg : s.gate = none)
    (hr : (s.phase t).Resting) (hh : s.head = head v) :
    Relation.ReflTransGen Step s (written s t v) := by
  have h1 : Relation.ReflTransGen Step s ({ s with gate := some t }.goto t (.begun s.head)) :=
    .single (.acquire t hg hr)
  have h2 := h1.tail (.write t (h := head (v + 1)) goto_self (by rw [hh]; rfl))
  have h3 := h2.tail (.publish t goto_self)
  have h4 := h3.tail (.mark t goto_self)
  have h5 := h4.tail (.release t goto_self)
  simpa [written, GroupState.goto, hg, head] using h5

/-- Committer `false` syncs version 1 alone; `true` has written version 2 meanwhile and waits. -/
def state : GroupState Bool :=
  let s := (written (init (head 0)) false 0).takeTurn false 1
  let s := s.goto false (.syncing 1 (head 1) s.onFile)
  (written s true 1).takeTurn true 2

lemma reachable : Reachable (head 0) state := by
  have h1 : Relation.ReflTransGen Step (init (head 0)) (written (init (head 0)) false 0) :=
    reaches_written rfl trivial rfl
  have h2 := h1.tail (.turn false (v := 1) rfl)
  have h3 := h2.tail (.startSync false (v := 1) rfl)
  have h4 := h3.trans (reaches_written (t := true) (v := 1) rfl trivial rfl)
  exact h4.tail (.turn true (v := 2) rfl)

end Sample

open Sample in
/-- There the waiting committer has a leader to wait for. -/
theorem group_commit_waiting :
    state.phase true = .waiting 2 ∧ ∃ u, (state.phase u).Leads :=
  ⟨rfl, (group_commit reachable).2.2.2.2 true 2 rfl⟩

end GroupState

end Arkeion

import Mathlib

/-!
# Sections under a readers-writer lock

Calls work on shared state in sections, each under the write lock or under a read lock. A call
takes the lock, runs the section and gives the lock back in three steps; the steps of the calls
interleave in every way that the lock allows. If no read section changes the state, a run is one
in which each section happens at once, in the order in which the sections took the lock.
-/
namespace LockedSections

inductive Access where
  | read
  | write
  deriving DecidableEq, Repr

/-- The local state of a call says which lock its next section needs, if it has one, and what
the section does. -/
structure Machine (σ Local : Type) where
  access : Local → Option Access
  body : Local → σ → σ × Local

structure RwLock (Call : Type) where
  writer : Option Call
  readers : List Call

section Lock

variable {Call : Type} [DecidableEq Call]

def RwLock.unlocked : RwLock Call := ⟨none, []⟩

def RwLock.free (lock : RwLock Call) : Access → Bool
  | .write => lock.writer.isNone && lock.readers.isEmpty
  | .read => lock.writer.isNone

def RwLock.take (lock : RwLock Call) (c : Call) : Access → RwLock Call
  | .write => { lock with writer := some c }
  | .read => { lock with readers := c :: lock.readers }

def RwLock.giveBack (lock : RwLock Call) (c : Call) : Access → RwLock Call
  | .write => { lock with writer := none }
  | .read => { lock with readers := lock.readers.erase c }

end Lock

/-- Where a call stands: between its sections, with the lock taken, or with the section run. -/
inductive Stage (Local : Type) where
  | outside (l : Local)
  | holding (access : Access) (l : Local)
  | leaving (access : Access) (l : Local)

def Stage.held {Local : Type} : Stage Local → Option Access
  | .outside _ => none
  | .holding access _ => some access
  | .leaving access _ => some access

/-- `acquired` lists the calls in the order in which they took the lock. -/
structure State (Call σ Local : Type) where
  shared : σ
  lock : RwLock Call
  stage : Call → Stage Local
  acquired : List Call

inductive Event (Call : Type) where
  | acquire (c : Call)
  | run (c : Call)
  | release (c : Call)
  deriving DecidableEq, Repr

section System

variable {Call σ Local : Type} [DecidableEq Call] (m : Machine σ Local)

def initial (shared : σ) (locals : Call → Local) : State Call σ Local :=
  ⟨shared, .unlocked, fun c => .outside (locals c), []⟩

def State.enter (s : State Call σ Local) (c : Call) (access : Access) (l : Local) :
    State Call σ Local :=
  { s with
    lock := s.lock.take c access
    stage := Function.update s.stage c (.holding access l)
    acquired := s.acquired ++ [c] }

def State.work (s : State Call σ Local) (c : Call) (access : Access) (l : Local) :
    State Call σ Local :=
  { s with
    shared := (m.body l s.shared).1
    stage := Function.update s.stage c (.leaving access (m.body l s.shared).2) }

def State.leave (s : State Call σ Local) (c : Call) (access : Access) (l : Local) :
    State Call σ Local :=
  { s with
    lock := s.lock.giveBack c access
    stage := Function.update s.stage c (.outside l) }

/-- A step that the lock or the stage of the call does not allow is none. -/
def step (s : State Call σ Local) : Event Call → Option (State Call σ Local)
  | .acquire c =>
    match s.stage c with
    | .outside l =>
      match m.access l with
      | some access => if s.lock.free access then some (s.enter c access l) else none
      | none => none
    | _ => none
  | .run c =>
    match s.stage c with
    | .holding access l => some (s.work m c access l)
    | _ => none
  | .release c =>
    match s.stage c with
    | .leaving access l => some (s.leave c access l)
    | _ => none

def runEvents (s : State Call σ Local) : List (Event Call) → Option (State Call σ Local)
  | [] => some s
  | e :: events => (step m s e).bind (fun t => runEvents t events)

variable {m}

theorem step_cases {s t : State Call σ Local} {e : Event Call} (h : step m s e = some t) :
    (∃ c access l, s.stage c = .outside l ∧ m.access l = some access ∧
      s.lock.free access = true ∧ t = s.enter c access l) ∨
    (∃ c access l, s.stage c = .holding access l ∧ t = s.work m c access l) ∨
    (∃ c access l, s.stage c = .leaving access l ∧ t = s.leave c access l) := by
  cases e with
  | acquire c =>
    left
    simp only [step] at h
    split at h
    · rename_i l hstage
      split at h
      · rename_i access haccess
        split at h
        · rename_i hfree
          exact ⟨c, access, l, hstage, haccess, hfree, (Option.some.inj h).symm⟩
        · cases h
      · cases h
    · cases h
  | run c =>
    right
    left
    simp only [step] at h
    split at h
    · rename_i access l hstage
      exact ⟨c, access, l, hstage, (Option.some.inj h).symm⟩
    · cases h
  | release c =>
    right
    right
    simp only [step] at h
    split at h
    · rename_i access l hstage
      exact ⟨c, access, l, hstage, (Option.some.inj h).symm⟩
    · cases h

theorem runEvents_invariant (P : State Call σ Local → Prop)
    (hstep : ∀ s t e, P s → step m s e = some t → P t) {events : List (Event Call)}
    {s t : State Call σ Local} (hs : P s) (h : runEvents m s events = some t) : P t := by
  induction events generalizing s with
  | nil =>
    cases h
    exact hs
  | cons e events ih =>
    rw [runEvents, Option.bind_eq_some_iff] at h
    obtain ⟨u, hu, hrest⟩ := h
    exact ih (hstep s u e hs hu) hrest

structure Guarded (s : State Call σ Local) : Prop where
  writes : ∀ c, (s.stage c).held = some .write → s.lock.writer = some c
  reads : ∀ c, (s.stage c).held = some .read → c ∈ s.lock.readers
  alone : s.lock.writer ≠ none → s.lock.readers = []
  entered : ∀ c access, (s.stage c).held = some access → c ∈ s.acquired

theorem held_update (stage : Call → Stage Local) (c : Call) (st : Stage Local) (d : Call) :
    (Function.update stage c st d).held = if d = c then st.held else (stage d).held := by
  by_cases hd : d = c
  · subst hd
    rw [Function.update_self, if_pos rfl]
  · rw [Function.update_of_ne hd, if_neg hd]

theorem enter_held (s : State Call σ Local) (c : Call) (access : Access) (l : Local) (d : Call) :
    ((s.enter c access l).stage d).held = if d = c then some access else (s.stage d).held :=
  held_update s.stage c (.holding access l) d

theorem work_held {s : State Call σ Local} {c : Call} {access : Access} {l : Local}
    (h : s.stage c = .holding access l) (d : Call) :
    ((s.work m c access l).stage d).held = (s.stage d).held := by
  apply (held_update s.stage c (.leaving access (m.body l s.shared).2) d).trans
  by_cases hd : d = c
  · rw [if_pos hd, hd, h]
    rfl
  · rw [if_neg hd]

theorem leave_held (s : State Call σ Local) (c : Call) (access : Access) (l : Local) (d : Call) :
    ((s.leave c access l).stage d).held = if d = c then none else (s.stage d).held :=
  held_update s.stage c (.outside l) d

omit [DecidableEq Call] in
theorem Guarded.idle {s : State Call σ Local} (hs : Guarded s)
    (hfree : s.lock.free .write = true) (d : Call) : (s.stage d).held = none := by
  simp only [RwLock.free, Bool.and_eq_true, Option.isNone_iff_eq_none, List.isEmpty_iff] at hfree
  cases hheld : (s.stage d).held with
  | none => rfl
  | some access =>
    cases access with
    | read =>
      have hmem := hs.reads d hheld
      rw [hfree.2] at hmem
      cases hmem
    | write =>
      have hwriter := hs.writes d hheld
      rw [hfree.1] at hwriter
      cases hwriter

omit [DecidableEq Call] in
theorem Guarded.excludes {s : State Call σ Local} (hs : Guarded s) {c d : Call}
    (hc : (s.stage c).held = some .write) (hd : d ≠ c) : (s.stage d).held = none := by
  have hwriter := hs.writes c hc
  cases hheld : (s.stage d).held with
  | none => rfl
  | some access =>
    cases access with
    | read =>
      have hmem := hs.reads d hheld
      rw [hs.alone (by rw [hwriter]; simp)] at hmem
      cases hmem
    | write =>
      have hwriter' := hs.writes d hheld
      rw [hwriter] at hwriter'
      exact absurd (Option.some.inj hwriter').symm hd

theorem guarded_enter {s : State Call σ Local} (hs : Guarded s) {c : Call} {access : Access}
    {l : Local} (hfree : s.lock.free access = true) : Guarded (s.enter c access l) := by
  have hentered (d : Call) (a : Access) (hd : ((s.enter c access l).stage d).held = some a) :
      d ∈ s.acquired ++ [c] := by
    rw [enter_held] at hd
    split at hd
    · rename_i hdc
      simp [hdc]
    · exact List.mem_append_left _ (hs.entered d a hd)
  cases access with
  | write =>
    refine ⟨fun d hd => ?_, fun d hd => ?_, fun _ => ?_, hentered⟩
    · rw [enter_held, hs.idle hfree] at hd
      split at hd
      · rename_i hdc
        rw [hdc]
        rfl
      · cases hd
    · rw [enter_held, hs.idle hfree] at hd
      split at hd
      · cases hd
      · cases hd
    · simp only [RwLock.free, Bool.and_eq_true, List.isEmpty_iff] at hfree
      exact hfree.2
  | read =>
    simp only [RwLock.free, Option.isNone_iff_eq_none] at hfree
    refine ⟨fun d hd => ?_, fun d hd => ?_, fun hw => absurd hfree hw, hentered⟩
    · rw [enter_held] at hd
      split at hd
      · cases hd
      · exact hs.writes d hd
    · rw [enter_held] at hd
      split at hd
      · rename_i hdc
        rw [hdc]
        exact List.mem_cons_self
      · exact List.mem_cons_of_mem _ (hs.reads d hd)

theorem guarded_work {s : State Call σ Local} (hs : Guarded s) {c : Call} {access : Access}
    {l : Local} (hstage : s.stage c = .holding access l) : Guarded (s.work m c access l) := by
  refine ⟨fun d hd => hs.writes d ?_, fun d hd => hs.reads d ?_, hs.alone,
    fun d a hd => hs.entered d a ?_⟩
  · rw [work_held hstage] at hd
    exact hd
  · rw [work_held hstage] at hd
    exact hd
  · rw [work_held hstage] at hd
    exact hd

theorem guarded_leave {s : State Call σ Local} (hs : Guarded s) {c : Call} {access : Access}
    {l : Local} (hstage : s.stage c = .leaving access l) : Guarded (s.leave c access l) := by
  have hc : (s.stage c).held = some access := by
    rw [hstage]
    rfl
  have hother {d : Call} {a : Access} (hd : ((s.leave c access l).stage d).held = some a) :
      d ≠ c ∧ (s.stage d).held = some a := by
    rw [leave_held] at hd
    split at hd
    · cases hd
    · rename_i hdc
      exact ⟨hdc, hd⟩
  refine ⟨fun d hd => ?_, fun d hd => ?_, fun hw => ?_, fun d a hd => hs.entered d a (hother hd).2⟩
  · obtain ⟨hdc, hheld⟩ := hother hd
    cases access with
    | write =>
      rw [hs.excludes hc hdc] at hheld
      cases hheld
    | read => exact hs.writes d hheld
  · obtain ⟨hdc, hheld⟩ := hother hd
    cases access with
    | write => exact hs.reads d hheld
    | read => exact (List.mem_erase_of_ne hdc).mpr (hs.reads d hheld)
  · cases access with
    | write => exact absurd rfl hw
    | read =>
      change s.lock.readers.erase c = []
      rw [hs.alone hw]
      rfl

theorem guarded_step {s t : State Call σ Local} {e : Event Call} (hs : Guarded s)
    (h : step m s e = some t) : Guarded t := by
  rcases step_cases h with ⟨c, access, l, -, -, hfree, rfl⟩ | ⟨c, access, l, hstage, rfl⟩ |
    ⟨c, access, l, hstage, rfl⟩
  · exact guarded_enter hs hfree
  · exact guarded_work hs hstage
  · exact guarded_leave hs hstage

variable (m)

/-- Sections that happen at once, each in the local state that its call has reached. -/
inductive Atomic (shared : σ) (locals : Call → Local) : List Call → σ → (Call → Local) → Prop
  | nil : Atomic shared locals [] shared locals
  | snoc {log : List Call} {s : σ} {ls : Call → Local} {c : Call} {access : Access} :
      Atomic shared locals log s ls → m.access (ls c) = some access →
      Atomic shared locals (log ++ [c]) (m.body (ls c) s).1
        (Function.update ls c (m.body (ls c) s).2)

/-- The system is at most the sections behind that hold the lock and have not run. -/
structure Follows (s : State Call σ Local) (shared : σ) (locals : Call → Local) : Prop where
  outside : ∀ c l, s.stage c = .outside l → locals c = l
  leaving : ∀ c access l, s.stage c = .leaving access l → locals c = l
  holding : ∀ c access l, s.stage c = .holding access l → locals c = (m.body l s.shared).2
  reads : ∀ c l, s.stage c = .holding .read l → (m.body l s.shared).1 = s.shared
  writes : ∀ c l, s.stage c = .holding .write l → (m.body l s.shared).1 = shared
  same : (∀ c l, s.stage c ≠ .holding .write l) → s.shared = shared

def Quiet (shared : σ) (locals : Call → Local) : Prop :=
  ∀ log s ls, Atomic m shared locals log s ls → ∀ c, m.access (ls c) = some .read →
    (m.body (ls c) s).1 = s

variable {m}

omit [DecidableEq Call] in
theorem Guarded.no_write {s : State Call σ Local} (hs : Guarded s) {access : Access}
    (hfree : s.lock.free access = true) (d : Call) (l : Local) :
    s.stage d ≠ .holding .write l := by
  intro hstage
  have hwriter := hs.writes d (by rw [hstage]; rfl)
  cases access with
  | write => simp [RwLock.free, hwriter] at hfree
  | read => simp [RwLock.free, hwriter] at hfree

theorem follows_enter {s : State Call σ Local} {shared : σ} {locals : Call → Local}
    (hf : Follows m s shared locals) (hs : Guarded s) {c : Call} {access : Access} {l : Local}
    (hfree : s.lock.free access = true)
    (hquiet : access = .read → (m.body l shared).1 = shared) :
    Follows m (s.enter c access l) (m.body l shared).1
      (Function.update locals c (m.body l shared).2) := by
  have hnone := hs.no_write hfree
  obtain rfl : s.shared = shared := hf.same hnone
  have hat : (s.enter c access l).stage c = .holding access l := Function.update_self ..
  have hother {d : Call} (hd : d ≠ c) : (s.enter c access l).stage d = s.stage d ∧
      Function.update locals c (m.body l s.shared).2 d = locals d :=
    ⟨Function.update_of_ne hd .., Function.update_of_ne hd ..⟩
  constructor
  · intro d l' hstage
    by_cases hd : d = c
    · rw [hd, hat] at hstage
      cases hstage
    · rw [(hother hd).1] at hstage
      rw [(hother hd).2, hf.outside d l' hstage]
  · intro d a l' hstage
    by_cases hd : d = c
    · rw [hd, hat] at hstage
      cases hstage
    · rw [(hother hd).1] at hstage
      rw [(hother hd).2, hf.leaving d a l' hstage]
  · intro d a l' hstage
    by_cases hd : d = c
    · subst hd
      rw [hat] at hstage
      cases hstage
      exact Function.update_self ..
    · rw [(hother hd).1] at hstage
      rw [(hother hd).2]
      exact hf.holding d a l' hstage
  · intro d l' hstage
    by_cases hd : d = c
    · rw [hd, hat] at hstage
      cases hstage
      exact hquiet rfl
    · rw [(hother hd).1] at hstage
      exact hf.reads d l' hstage
  · intro d l' hstage
    by_cases hd : d = c
    · rw [hd, hat] at hstage
      cases hstage
      rfl
    · rw [(hother hd).1] at hstage
      exact absurd hstage (hnone d l')
  · intro hno
    cases access with
    | write => exact absurd hat (hno c l)
    | read => exact (hquiet rfl).symm

theorem follows_work {s : State Call σ Local} {shared : σ} {locals : Call → Local}
    (hf : Follows m s shared locals) (hs : Guarded s) {c : Call} {access : Access} {l : Local}
    (hstage : s.stage c = .holding access l) : Follows m (s.work m c access l) shared locals := by
  have hat : (s.work m c access l).stage c = .leaving access (m.body l s.shared).2 :=
    Function.update_self ..
  have hother {d : Call} (hd : d ≠ c) : (s.work m c access l).stage d = s.stage d :=
    Function.update_of_ne hd ..
  -- a section that holds the lock beside this one reads, and so does this one
  have hholding {d : Call} {a : Access} {l' : Local}
      (hd : (s.work m c access l).stage d = .holding a l') :
      s.stage d = .holding a l' ∧ (s.work m c access l).shared = s.shared := by
    by_cases hdc : d = c
    · rw [hdc, hat] at hd
      cases hd
    · rw [hother hdc] at hd
      refine ⟨hd, ?_⟩
      cases access with
      | read => exact hf.reads c l hstage
      | write =>
        have hheld := hs.excludes (c := c) (by rw [hstage]; rfl) hdc
        rw [hd] at hheld
        cases hheld
  constructor
  · intro d l' hd
    by_cases hdc : d = c
    · rw [hdc, hat] at hd
      cases hd
    · rw [hother hdc] at hd
      exact hf.outside d l' hd
  · intro d a l' hd
    by_cases hdc : d = c
    · rw [hdc, hat] at hd
      cases hd
      rw [hdc]
      exact hf.holding c access l hstage
    · rw [hother hdc] at hd
      exact hf.leaving d a l' hd
  · intro d a l' hd
    obtain ⟨hd', hshared⟩ := hholding hd
    rw [hshared]
    exact hf.holding d a l' hd'
  · intro d l' hd
    obtain ⟨hd', hshared⟩ := hholding hd
    rw [hshared]
    exact hf.reads d l' hd'
  · intro d l' hd
    obtain ⟨hd', hshared⟩ := hholding hd
    rw [hshared]
    exact hf.writes d l' hd'
  · intro hno
    cases access with
    | write => exact hf.writes c l hstage
    | read =>
      apply (hf.reads c l hstage).trans
      apply hf.same
      intro d l' hd
      by_cases hdc : d = c
      · rw [hdc, hstage] at hd
        cases hd
      · exact hno d l' ((hother hdc).trans hd)

theorem follows_leave {s : State Call σ Local} {shared : σ} {locals : Call → Local}
    (hf : Follows m s shared locals) {c : Call} {access : Access} {l : Local}
    (hstage : s.stage c = .leaving access l) : Follows m (s.leave c access l) shared locals := by
  have hat : (s.leave c access l).stage c = .outside l := Function.update_self ..
  have hback {d : Call} {a : Access} {l' : Local}
      (hd : (s.leave c access l).stage d = .holding a l') : s.stage d = .holding a l' := by
    by_cases hdc : d = c
    · rw [hdc, hat] at hd
      cases hd
    · rw [← hd]
      exact (Function.update_of_ne hdc ..).symm
  constructor
  · intro d l' hd
    by_cases hdc : d = c
    · rw [hdc, hat] at hd
      cases hd
      rw [hdc]
      exact hf.leaving c access l hstage
    · exact hf.outside d l' ((Function.update_of_ne hdc ..).symm.trans hd)
  · intro d a l' hd
    by_cases hdc : d = c
    · rw [hdc, hat] at hd
      cases hd
    · exact hf.leaving d a l' ((Function.update_of_ne hdc ..).symm.trans hd)
  · exact fun d a l' hd => hf.holding d a l' (hback hd)
  · exact fun d l' hd => hf.reads d l' (hback hd)
  · exact fun d l' hd => hf.writes d l' (hback hd)
  · intro hno
    apply hf.same
    intro d l' hd
    by_cases hdc : d = c
    · rw [hdc, hstage] at hd
      cases hd
    · exact hno d l' ((Function.update_of_ne hdc ..).trans hd)

/-- Every run is behind an atomic run of its sections in the order of acquisition. -/
theorem runEvents_atomic {shared : σ} {locals : Call → Local} (hquiet : Quiet m shared locals)
    {events : List (Event Call)} {s : State Call σ Local}
    (h : runEvents m (initial shared locals) events = some s) :
    Guarded s ∧ ∃ sh ls, Atomic m shared locals s.acquired sh ls ∧ Follows m s sh ls := by
  refine runEvents_invariant (fun s => Guarded s ∧ ∃ sh ls,
    Atomic m shared locals s.acquired sh ls ∧ Follows m s sh ls) ?_ ⟨?_, shared, locals, .nil, ?_⟩ h
  · rintro s t e ⟨hs, sh, ls, hatomic, hf⟩ hstep
    refine ⟨guarded_step hs hstep, ?_⟩
    rcases step_cases hstep with ⟨c, access, l, hstage, haccess, hfree, rfl⟩ |
      ⟨c, access, l, hstage, rfl⟩ | ⟨c, access, l, hstage, rfl⟩
    · obtain rfl := hf.outside c l hstage
      refine ⟨_, _, hatomic.snoc haccess, follows_enter hf hs hfree ?_⟩
      rintro rfl
      exact hquiet _ _ _ hatomic c haccess
    · exact ⟨sh, ls, hatomic, follows_work hf hs hstage⟩
    · exact ⟨sh, ls, hatomic, follows_leave hf hstage⟩
  · constructor
    · intro c hc
      cases hc
    · intro c hc
      cases hc
    · intro hw
      exact absurd rfl hw
    · intro c access hc
      cases hc
  · constructor
    · intro c l hc
      cases hc
      rfl
    · intro c access l hc
      cases hc
    · intro c access l hc
      cases hc
    · intro c l hc
      cases hc
    · intro c l hc
      cases hc
    · intro _
      rfl

omit [DecidableEq Call] in
theorem Follows.settled {s : State Call σ Local} {shared : σ} {locals : Call → Local}
    (hf : Follows m s shared locals) (hidle : ∀ c, (s.stage c).held = none) :
    s.shared = shared ∧ ∀ c, s.stage c = .outside (locals c) := by
  constructor
  · apply hf.same
    intro c l hstage
    have := hidle c
    rw [hstage] at this
    cases this
  · intro c
    have hheld := hidle c
    cases hstage : s.stage c with
    | outside l => rw [hf.outside c l hstage]
    | holding access l =>
      rw [hstage] at hheld
      cases hheld
    | leaving access l =>
      rw [hstage] at hheld
      cases hheld

end System

section LastSections

variable {Call : Type} [DecidableEq Call]

theorem dedup_concat (l : List Call) (c : Call) :
    (l ++ [c]).dedup = l.dedup.filter (· ≠ c) ++ [c] := by
  induction l with
  | nil => rfl
  | cons a l ih =>
    rw [List.cons_append]
    by_cases hmem : a ∈ l
    · rw [List.dedup_cons_of_mem (List.mem_append_left _ hmem), ih, List.dedup_cons_of_mem hmem]
    · rw [List.dedup_cons_of_notMem hmem]
      by_cases hac : a = c
      · subst hac
        rw [List.dedup_cons_of_mem (by simp), ih, List.filter_cons_of_neg (by simp)]
      · rw [List.dedup_cons_of_notMem (by simp [hmem, hac]), ih,
          List.filter_cons_of_pos (by simpa using hac), List.cons_append]

theorem filter_ne_of_notMem {l : List Call} {c : Call} (h : c ∉ l) : l.filter (· ≠ c) = l := by
  rw [List.filter_eq_self]
  intro x hx
  have : x ≠ c := fun heq => h (heq ▸ hx)
  simpa using this

theorem done_new {log pending : List Call} {c : Call} (hlog : c ∉ log) (hpending : c ∉ pending) :
    (log ++ [c]).dedup.filter (· ∉ pending) = log.dedup.filter (· ∉ pending) ++ [c] := by
  rw [dedup_concat, filter_ne_of_notMem (by simpa using hlog), List.filter_append]
  simp [hpending]

theorem done_pending {log pending : List Call} {c : Call} (hlog : c ∉ log) :
    (log ++ [c]).dedup.filter (· ∉ pending ++ [c]) = log.dedup.filter (· ∉ pending) := by
  rw [dedup_concat, filter_ne_of_notMem (by simpa using hlog), List.filter_append]
  have hlast : [c].filter (· ∉ pending ++ [c]) = [] := by simp
  rw [hlast, List.append_nil]
  apply List.filter_congr
  intro x hx
  have : x ≠ c := fun heq => hlog (heq ▸ List.mem_dedup.mp hx)
  simp [this]

theorem done_resumed {log pending : List Call} {c : Call} (hc : c ∈ pending)
    (hnodup : pending.Nodup) :
    (log ++ [c]).dedup.filter (· ∉ pending.erase c) = log.dedup.filter (· ∉ pending) ++ [c] := by
  rw [dedup_concat, List.filter_append, List.filter_filter]
  congr 1
  · apply List.filter_congr
    intro x _
    by_cases hx : x = c
    · simp [hx, hc]
    · simp [hx, List.mem_erase_of_ne hx]
  · simp [hnodup.not_mem_erase]

end LastSections

end LockedSections

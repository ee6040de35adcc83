import Mathlib

/-!
# Custody of descriptors

A descriptor is opened, changes hands, is taken up by one party, and that party ends its work on
it by closing it; then it may be opened again. The log tells what happened to which descriptor,
and the holdings tell which descriptors are in somebody's hands and what is still to be done.
-/
namespace Custody

variable {Fd Party Action : Type}

inductive Entry (Party Action : Type) where
  | opened
  | taken (party : Party)
  | did (party : Party) (a : Action)
  deriving DecidableEq

def session (party : Party) (actions : List Action) : List (Entry Party Action) :=
  .opened :: .taken party :: actions.map (.did party)

def chronicle (sessions : List (Party × List Action)) : List (Entry Party Action) :=
  sessions.flatMap (fun x => session x.1 x.2)

def ClosesLast (closes : Action → Bool) (actions : List Action) : Prop :=
  ∃ before last, actions = before ++ [last] ∧ closes last = true ∧
    ∀ a ∈ before, closes a = false

structure Contract (Party Action : Type) where
  closes : Action → Bool
  allowed : Party → List Action → Prop
  closes_last : ∀ {party actions}, allowed party actions → ClosesLast closes actions

section Log

variable [DecidableEq Fd]

def entries (log : List (Fd × Entry Party Action)) (fd : Fd) : List (Entry Party Action) :=
  (log.filter (fun e => e.1 = fd)).map Prod.snd

@[simp] theorem entries_snoc_self (log : List (Fd × Entry Party Action)) (fd : Fd)
    (e : Entry Party Action) : entries (log ++ [(fd, e)]) fd = entries log fd ++ [e] := by
  simp [entries]

@[simp] theorem entries_snoc_ne (log : List (Fd × Entry Party Action)) {fd fd' : Fd}
    (e : Entry Party Action) (h : fd ≠ fd') :
    entries (log ++ [(fd, e)]) fd' = entries log fd' := by
  simp [entries, h]

def openAfter (closes : Action → Bool) (before : Bool) : Entry Party Action → Bool
  | .opened => true
  | .taken _ => before
  | .did _ a => before && !closes a

def isOpen (closes : Action → Bool) (log : List (Fd × Entry Party Action)) (fd : Fd) : Bool :=
  (entries log fd).foldl (openAfter closes) false

end Log

section Opening

variable {closes : Action → Bool}

theorem openAfter_actions (party : Party) (actions : List Action) (before : Bool) :
    (actions.map (Entry.did party)).foldl (openAfter closes) before =
      (before && actions.all (fun a => !closes a)) := by
  induction actions generalizing before with
  | nil => simp
  | cons a actions ih =>
    rw [List.map_cons, List.foldl_cons, ih]
    simp [openAfter, Bool.and_assoc]

theorem openAfter_session {party : Party} {actions : List Action} (h : ClosesLast closes actions)
    (before : Bool) : (session party actions).foldl (openAfter closes) before = false := by
  obtain ⟨first, last, rfl, hlast, -⟩ := h
  simp [session, openAfter, openAfter_actions, hlast]

theorem openAfter_part {party : Party} {done rest : List Action}
    (h : ClosesLast closes (done ++ rest)) (hrest : rest ≠ []) (before : Bool) :
    (session party done).foldl (openAfter closes) before = true := by
  obtain ⟨first, last, heq, -, hfirst⟩ := h
  obtain ⟨a, init, hrest⟩ : ∃ a init, rest = init ++ [a] :=
    ⟨_, _, (List.dropLast_append_getLast hrest).symm⟩
  subst hrest
  rw [← List.append_assoc] at heq
  have hdone : ∀ a ∈ done, closes a = false := by
    intro a ha
    have hinit := List.append_inj_left' heq rfl
    exact hfirst a (hinit ▸ List.mem_append_left _ ha)
  have hall : done.all (fun a => !closes a) = true := by
    rw [List.all_eq_true]
    intro a ha
    simp [hdone a ha]
  simp [session, openAfter, openAfter_actions, hall]

theorem openAfter_sessions {sessions : List (Party × List Action)}
    (h : ∀ x ∈ sessions, ClosesLast closes x.2) :
    (chronicle sessions).foldl (openAfter closes) false = false := by
  induction sessions with
  | nil => rfl
  | cons x sessions ih =>
    rw [chronicle, List.flatMap_cons, List.foldl_append, openAfter_session (h x List.mem_cons_self)]
    exact ih (fun y hy => h y (List.mem_cons_of_mem _ hy))

end Opening

/-- What is still to be done with a descriptor that is in somebody's hands. -/
inductive Phase (Party Action : Type) where
  | pending
  | active (party : Party) (rest : List Action)

def pledge (fd : Fd) (party : Party) : List Action → Multiset (Fd × Phase Party Action)
  | [] => 0
  | a :: rest => {(fd, .active party (a :: rest))}

inductive Current (k : Contract Party Action) (held : Multiset (Fd × Phase Party Action))
    (fd : Fd) : List (Entry Party Action) → Prop
  | free : fd ∉ held.map Prod.fst → Current k held fd []
  | pending : (fd, .pending) ∈ held → Current k held fd [.opened]
  | active {party : Party} {done rest : List Action} : (fd, .active party rest) ∈ held →
      rest ≠ [] → k.allowed party (done ++ rest) → Current k held fd (session party done)

def Standing (k : Contract Party Action) (held : Multiset (Fd × Phase Party Action)) (fd : Fd)
    (log : List (Entry Party Action)) : Prop :=
  ∃ (sessions : List (Party × List Action)) (current : List (Entry Party Action)),
    (∀ x ∈ sessions, k.allowed x.1 x.2) ∧ Current k held fd current ∧
    log = chronicle sessions ++ current

/-- The invariant: no descriptor is held twice, and the log of each one is in order. -/
structure Kept [DecidableEq Fd] (k : Contract Party Action)
    (log : List (Fd × Entry Party Action)) (held : Multiset (Fd × Phase Party Action)) : Prop where
  nodup : (held.map Prod.fst).Nodup
  standing : ∀ fd, Standing k held fd (entries log fd)

section Holdings

variable {k : Contract Party Action} {held held' : Multiset (Fd × Phase Party Action)} {fd : Fd}

theorem mem_pledge {party : Party} {rest : List Action} {x : Fd × Phase Party Action} :
    x ∈ pledge fd party rest ↔ rest ≠ [] ∧ x = (fd, .active party rest) := by
  cases rest with
  | nil => simp [pledge]
  | cons a rest => simp [pledge]

theorem current_congr (h : ∀ phase, (fd, phase) ∈ held' ↔ (fd, phase) ∈ held)
    {current : List (Entry Party Action)} (hcurrent : Current k held fd current) :
    Current k held' fd current := by
  cases hcurrent with
  | free hfree =>
    refine .free (fun hmem => hfree ?_)
    obtain ⟨⟨fd', phase⟩, hphase, rfl⟩ := Multiset.mem_map.mp hmem
    exact Multiset.mem_map_of_mem Prod.fst ((h phase).mp hphase)
  | pending hmem => exact .pending ((h _).mpr hmem)
  | active hmem hrest hallowed => exact .active ((h _).mpr hmem) hrest hallowed

theorem phase_unique (hnodup : (held.map Prod.fst).Nodup) {p q : Phase Party Action}
    (hp : (fd, p) ∈ held) (hq : (fd, q) ∈ held) : p = q :=
  (Prod.mk.inj (Multiset.inj_on_of_nodup_map hnodup _ hp _ hq rfl)).2

theorem current_held {phase : Phase Party Action} {current : List (Entry Party Action)}
    (hmem : (fd, phase) ∈ held) (hcurrent : Current k held fd current) (before : Bool) :
    current.foldl (openAfter k.closes) before = true := by
  cases hcurrent with
  | free hfree => exact absurd (Multiset.mem_map_of_mem Prod.fst hmem) hfree
  | pending => rfl
  | active _ hrest hallowed => exact openAfter_part (k.closes_last hallowed) hrest before

theorem nodup_pledge {phase : Phase Party Action}
    (h : (((fd, phase) ::ₘ held).map Prod.fst).Nodup) (party : Party) (rest : List Action) :
    ((pledge fd party rest + held).map Prod.fst).Nodup := by
  rw [Multiset.map_cons] at h
  cases rest with
  | nil =>
    rw [pledge, zero_add]
    exact (Multiset.nodup_cons.mp h).2
  | cons a rest =>
    rw [pledge, Multiset.singleton_add, Multiset.map_cons]
    exact h

theorem pledge_others {phase p : Phase Party Action} {party : Party} {rest : List Action}
    {fd' : Fd} (hne : fd' ≠ fd) :
    (fd', p) ∈ pledge fd party rest + held ↔ (fd', p) ∈ (fd, phase) ::ₘ held := by
  simp [mem_pledge, hne]

variable [DecidableEq Fd] {log : List (Fd × Entry Party Action)}

theorem not_held_of_closed (h : Kept k log held) (hclosed : isOpen k.closes log fd = false) :
    fd ∉ held.map Prod.fst := by
  intro hmem
  obtain ⟨⟨fd', phase⟩, hphase, rfl⟩ := Multiset.mem_map.mp hmem
  obtain ⟨sessions, current, hsessions, hcurrent, hlog⟩ := h.standing fd'
  have hopen : isOpen k.closes log fd' = true := by
    rw [isOpen, hlog, List.foldl_append]
    exact current_held hphase hcurrent _
  rw [hopen] at hclosed
  cases hclosed

theorem kept_snoc (h : Kept k log held) {e : Entry Party Action}
    (hnodup : (held'.map Prod.fst).Nodup)
    (hothers : ∀ fd' phase, fd' ≠ fd → ((fd', phase) ∈ held' ↔ (fd', phase) ∈ held))
    (hfd : Standing k held' fd (entries log fd ++ [e])) : Kept k (log ++ [(fd, e)]) held' := by
  refine ⟨hnodup, fun fd' => ?_⟩
  by_cases hne : fd' = fd
  · subst hne
    rwa [entries_snoc_self]
  · rw [entries_snoc_ne _ _ (Ne.symm hne)]
    obtain ⟨sessions, current, hsessions, hcurrent, hlog⟩ := h.standing fd'
    exact ⟨sessions, current, hsessions,
      current_congr (fun phase => hothers fd' phase hne) hcurrent, hlog⟩

theorem kept_open (h : Kept k log held) (hclosed : isOpen k.closes log fd = false) :
    Kept k (log ++ [(fd, .opened)]) ((fd, .pending) ::ₘ held) := by
  have hfree := not_held_of_closed h hclosed
  refine kept_snoc h ?_ ?_ ?_
  · rw [Multiset.map_cons, Multiset.nodup_cons]
    exact ⟨hfree, h.nodup⟩
  · intro fd' phase hne
    simp [hne]
  · obtain ⟨sessions, current, hsessions, hcurrent, hlog⟩ := h.standing fd
    cases hcurrent with
    | free =>
      refine ⟨sessions, [.opened], hsessions, .pending (Multiset.mem_cons_self _ _), ?_⟩
      rw [hlog, List.append_nil]
    | pending hmem => exact absurd (Multiset.mem_map_of_mem Prod.fst hmem) hfree
    | active hmem => exact absurd (Multiset.mem_map_of_mem Prod.fst hmem) hfree

theorem kept_take {party : Party} {actions : List Action}
    (h : Kept k log ((fd, .pending) ::ₘ held)) (hallowed : k.allowed party actions) :
    Kept k (log ++ [(fd, .taken party)]) (pledge fd party actions + held) := by
  refine kept_snoc h (nodup_pledge h.nodup party actions) (fun fd' p => pledge_others) ?_
  obtain ⟨sessions, current, hsessions, hcurrent, hlog⟩ := h.standing fd
  have hmem : (fd, .pending) ∈ (fd, .pending) ::ₘ held := Multiset.mem_cons_self _ _
  cases hcurrent with
  | free hfree => exact absurd (Multiset.mem_map_of_mem Prod.fst hmem) hfree
  | pending =>
    obtain ⟨before, last, rfl, -⟩ := k.closes_last hallowed
    have hrest : before ++ [last] ≠ [] := List.append_ne_nil_of_right_ne_nil _ (by simp)
    refine ⟨sessions, session party [], hsessions, .active ?_ hrest hallowed, ?_⟩
    · exact Multiset.mem_add.mpr (Or.inl (mem_pledge.mpr ⟨hrest, rfl⟩))
    · rw [hlog, List.append_assoc]
      rfl
  | active hactive => exact absurd (phase_unique h.nodup hmem hactive) (by simp)

theorem kept_act {party : Party} {a : Action} {rest : List Action}
    (h : Kept k log ((fd, .active party (a :: rest)) ::ₘ held)) :
    Kept k (log ++ [(fd, .did party a)]) (pledge fd party rest + held) := by
  refine kept_snoc h (nodup_pledge h.nodup party rest) (fun fd' p => pledge_others) ?_
  obtain ⟨sessions, current, hsessions, hcurrent, hlog⟩ := h.standing fd
  have hmem : (fd, .active party (a :: rest)) ∈ (fd, .active party (a :: rest)) ::ₘ held :=
    Multiset.mem_cons_self _ _
  cases hcurrent with
  | free hfree => exact absurd (Multiset.mem_map_of_mem Prod.fst hmem) hfree
  | pending hpending => exact absurd (phase_unique h.nodup hmem hpending) (by simp)
  | @active party' done rest' hactive _ hallowed =>
    cases phase_unique h.nodup hmem hactive
    rw [List.append_cons] at hallowed
    have hdone : session party done ++ [.did party a] = session party (done ++ [a]) := by
      simp [session]
    cases rest with
    | nil =>
      -- that was the last action, so the session is complete
      rw [List.append_nil] at hallowed
      refine ⟨sessions ++ [(party, done ++ [a])], [], ?_, .free ?_, ?_⟩
      · intro x hx
        rcases List.mem_append.mp hx with hx | hx
        · exact hsessions x hx
        · rw [List.mem_singleton] at hx
          subst hx
          exact hallowed
      · rw [pledge, zero_add]
        have hnodup := h.nodup
        rw [Multiset.map_cons] at hnodup
        exact (Multiset.nodup_cons.mp hnodup).1
      · rw [hlog, List.append_assoc, hdone]
        simp [chronicle]
    | cons b rest =>
      refine ⟨sessions, session party (done ++ [a]), hsessions, .active ?_ (by simp) hallowed, ?_⟩
      · exact Multiset.mem_add.mpr (Or.inl (mem_pledge.mpr ⟨by simp, rfl⟩))
      · rw [hlog, List.append_assoc, hdone]

theorem kept_nothing : Kept k ([] : List (Fd × Entry Party Action)) 0 :=
  ⟨by simp, fun fd => ⟨[], [], by simp, .free (by simp), rfl⟩⟩

end Holdings

end Custody

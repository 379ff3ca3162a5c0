import Mathlib.Data.List.Induction
import Mathlib.Logic.Function.Basic

/-!
# Handing connections to threads (`do_server`, `Assignment02/server.c`)

The accept loop of `do_server` stores every descriptor in the one variable `new_socket`, reads the
identity of the client, and creates a thread with the address of `new_socket`. The first step of
`observer_thread` and `user_thread` copies the descriptor through that address.

The server closes no client descriptor, so descriptors are fresh: the `n`-th accepted connection has
descriptor `n`, and the thread created for a connection is kept under its number.

* `HandOff`: every thread serves the connection it was created for, alone and with the right
  routine, and every client that told its identity is served.
* `handOff_iff`: **once every created thread has copied its descriptor, the hand-off is right iff
  every `accept` of the run was made when all created threads had already copied.**
* `handOff_broken`: a second client is accepted before the first thread has copied, and both
  threads serve the second client.
-/

namespace C380.Notapp

/-- `enum msg_identity`, with any other value a client may send. -/
inductive MsgIdentity where
  | introObserver
  | introUser
  | unknown
  deriving DecidableEq, Repr

/-- The start routines of the threads that serve clients. -/
inductive Routine where
  | observerThread
  | userThread
  deriving DecidableEq, Repr

/-- The `switch` of the accept loop. -/
def MsgIdentity.routine : MsgIdentity → Option Routine
  | .introObserver => some .observerThread
  | .introUser => some .userThread
  | .unknown => none

/-- Where the accept loop stands. -/
inductive AcceptPc where
  | accept
  | readIdentity
  | createThread (clientId : MsgIdentity)
  deriving DecidableEq, Repr

/-- A created thread: its routine, and `sock` once it has copied the descriptor. -/
structure ServingThread where
  routine : Routine
  sock : Option ℕ
  deriving DecidableEq, Repr

/-- The accept loop, the number of connections accepted, and for each connection the identity read
and the thread created. -/
structure AcceptState where
  pc : AcceptPc
  newSocket : ℕ
  accepted : ℕ
  identity : ℕ → Option MsgIdentity
  thread : ℕ → Option ServingThread

/-- The atomic steps: `accept`, the `read` of the identity (`none` when it returns 0), the `switch`,
and the first step of the thread created for connection `c`. -/
inductive AcceptAction where
  | accept
  | readIdentity (result : Option MsgIdentity)
  | createThread
  | copySocket (c : ℕ)
  deriving DecidableEq, Repr

/-- Before the first `accept`. -/
def AcceptState.init : AcceptState := ⟨.accept, 0, 0, fun _ => none, fun _ => none⟩

/-- One atomic step. -/
def AcceptState.next (s : AcceptState) : AcceptAction → Option AcceptState
  | .accept =>
    if s.pc = .accept then
      some { s with pc := .readIdentity, newSocket := s.accepted, accepted := s.accepted + 1 }
    else none
  | .readIdentity result =>
    if s.pc = .readIdentity then
      match result with
      | none => some { s with pc := .accept }
      | some clientId =>
        some { s with
          pc := .createThread clientId
          identity := Function.update s.identity s.newSocket (some clientId) }
    else none
  | .createThread =>
    match s.pc with
    | .createThread clientId =>
      match clientId.routine with
      | some routine =>
        some { s with
          pc := .accept
          thread := Function.update s.thread s.newSocket (some ⟨routine, none⟩) }
      | none => some { s with pc := .accept }
    | _ => none
  | .copySocket c =>
    match s.thread c with
    | some ⟨routine, none⟩ =>
      some { s with thread := Function.update s.thread c (some ⟨routine, some s.newSocket⟩) }
    | _ => none

/-- The state after a sequence of steps. -/
def runAccept (acts : List AcceptAction) : Option AcceptState :=
  acts.foldlM AcceptState.next AcceptState.init

variable {s s' : AcceptState}

/-- Every created thread has copied its descriptor. -/
def AcceptState.AllCopied (s : AcceptState) : Prop :=
  ∀ c t, s.thread c = some t → t.sock ≠ none

/-- **The hand-off is right.** -/
structure HandOff (s : AcceptState) : Prop where
  own : ∀ c t fd, s.thread c = some t → t.sock = some fd → fd = c
  single : ∀ c c' t t' fd, s.thread c = some t → s.thread c' = some t' →
    t.sock = some fd → t'.sock = some fd → c = c'
  served : ∀ c clientId routine, s.identity c = some clientId → clientId.routine = some routine →
    ∃ c' t, s.thread c' = some t ∧ t.sock = some c ∧ t.routine = routine
  routine : ∀ c t fd clientId, s.thread c = some t → t.sock = some fd →
    s.identity fd = some clientId → clientId.routine = some t.routine

/-- Every `accept` is made when all created threads have copied their descriptor. -/
def AcceptsAfterCopies (acts : List AcceptAction) : Prop :=
  ∀ pre, pre ++ [.accept] <+: acts → ∀ s, runAccept pre = some s → s.AllCopied

/-- What one step does, case by case. -/
inductive AcceptStep (s : AcceptState) : AcceptAction → AcceptState → Prop
  | accept (hpc : s.pc = .accept) : AcceptStep s .accept
      { s with pc := .readIdentity, newSocket := s.accepted, accepted := s.accepted + 1 }
  | closed (hpc : s.pc = .readIdentity) : AcceptStep s (.readIdentity none)
      { s with pc := .accept }
  | identified (clientId : MsgIdentity) (hpc : s.pc = .readIdentity) :
      AcceptStep s (.readIdentity (some clientId))
        { s with
          pc := .createThread clientId
          identity := Function.update s.identity s.newSocket (some clientId) }
  | created (clientId : MsgIdentity) (routine : Routine) (hpc : s.pc = .createThread clientId)
      (hr : clientId.routine = some routine) : AcceptStep s .createThread
        { s with
          pc := .accept
          thread := Function.update s.thread s.newSocket (some ⟨routine, none⟩) }
  | refused (clientId : MsgIdentity) (hpc : s.pc = .createThread clientId)
      (hr : clientId.routine = none) : AcceptStep s .createThread { s with pc := .accept }
  | copied (c : ℕ) (routine : Routine) (ht : s.thread c = some ⟨routine, none⟩) :
      AcceptStep s (.copySocket c)
        { s with thread := Function.update s.thread c (some ⟨routine, some s.newSocket⟩) }

theorem acceptStep_of_next {a : AcceptAction} (h : s.next a = some s') : AcceptStep s a s' := by
  cases a with
  | accept =>
    simp only [AcceptState.next, Option.ite_none_right_eq_some, Option.some.injEq] at h
    obtain ⟨hpc, rfl⟩ := h
    exact .accept hpc
  | readIdentity result =>
    simp only [AcceptState.next, Option.ite_none_right_eq_some] at h
    obtain ⟨hpc, h⟩ := h
    cases result with
    | none =>
      obtain rfl := Option.some.inj h
      exact .closed hpc
    | some clientId =>
      obtain rfl := Option.some.inj h
      exact .identified clientId hpc
  | createThread =>
    simp only [AcceptState.next] at h
    split at h
    · rename_i clientId hpc
      split at h
      · rename_i routine hr
        obtain rfl := Option.some.inj h
        exact .created clientId routine hpc hr
      · rename_i hr
        obtain rfl := Option.some.inj h
        exact .refused clientId hpc hr
    · cases h
  | copySocket c =>
    simp only [AcceptState.next] at h
    split at h
    · rename_i routine ht
      obtain rfl := Option.some.inj h
      exact .copied c routine ht
    · cases h

/-! ## The bookkeeping of the loop -/

/-- What holds in every state: a connection has a thread iff its identity asks for one, and
`new_socket` is the last connection. -/
structure AcceptOk (s : AcceptState) : Prop where
  newSocket : 0 < s.accepted → s.newSocket + 1 = s.accepted
  started : s.pc ≠ .accept → 0 < s.accepted
  fresh : ∀ c, s.accepted ≤ c → s.thread c = none ∧ s.identity c = none
  reading : s.pc = .readIdentity → s.thread s.newSocket = none ∧ s.identity s.newSocket = none
  creating : ∀ clientId, s.pc = .createThread clientId →
    s.thread s.newSocket = none ∧ s.identity s.newSocket = some clientId
  asked : ∀ c t, s.thread c = some t →
    ∃ clientId, s.identity c = some clientId ∧ clientId.routine = some t.routine
  answered : ∀ c clientId routine, s.identity c = some clientId →
    clientId.routine = some routine →
    (∃ t, s.thread c = some t ∧ t.routine = routine) ∨
      (s.pc = .createThread clientId ∧ c = s.newSocket)

theorem acceptOk_init : AcceptOk AcceptState.init := by
  refine ⟨?_, ?_, ?_, ?_, ?_, ?_, ?_⟩
  · exact fun h => absurd h (Nat.lt_irrefl _)
  · exact fun h => absurd rfl h
  · exact fun _ _ => ⟨rfl, rfl⟩
  · exact fun h => nomatch h
  · exact fun _ h => nomatch h
  · exact fun _ _ h => nomatch h
  · exact fun _ _ _ h => nomatch h

/-- Outside the `switch`, every client with a known identity has its thread. -/
theorem AcceptOk.answered_thread (h : AcceptOk s) (hpc : ∀ clientId, s.pc ≠ .createThread clientId)
    {c : ℕ} {clientId : MsgIdentity} {routine : Routine} (hid : s.identity c = some clientId)
    (hr : clientId.routine = some routine) : ∃ t, s.thread c = some t ∧ t.routine = routine :=
  (h.answered c clientId routine hid hr).resolve_right fun he => hpc clientId he.1

/-- The loop comes back to `accept` with every known client answered. -/
theorem AcceptOk.back (h : AcceptOk s)
    (hanswered : ∀ c clientId routine, s.identity c = some clientId →
      clientId.routine = some routine → ∃ t, s.thread c = some t ∧ t.routine = routine) :
    AcceptOk { s with pc := .accept } :=
  ⟨h.newSocket, fun he => absurd rfl he, h.fresh, fun he => (nomatch he), fun _ he => (nomatch he),
    h.asked, fun c clientId routine hid hr => Or.inl (hanswered c clientId routine hid hr)⟩

theorem AcceptOk.accept (h : AcceptOk s) (hpc : s.pc = .accept) : AcceptOk
    { s with pc := .readIdentity, newSocket := s.accepted, accepted := s.accepted + 1 } := by
  refine ⟨fun _ => rfl, fun _ => Nat.succ_pos _, fun c hc => h.fresh c ?_,
    fun _ => h.fresh s.accepted (Nat.le_refl _), fun _ he => (nomatch he), h.asked,
    fun c clientId routine hid hr => Or.inl ?_⟩
  · simp only at hc
    omega
  · exact h.answered_thread (fun _ he => nomatch hpc.symm.trans he) hid hr

theorem AcceptOk.identified (h : AcceptOk s) (clientId : MsgIdentity)
    (hpc : s.pc = .readIdentity) : AcceptOk
    { s with
      pc := .createThread clientId
      identity := Function.update s.identity s.newSocket (some clientId) } := by
  have hstarted : 0 < s.accepted := h.started (by rw [hpc]; exact nofun)
  have hlast := h.newSocket hstarted
  obtain ⟨hthread, hidentity⟩ := h.reading hpc
  refine ⟨h.newSocket, fun _ => hstarted, fun c hc => ?_, fun he => (nomatch he), ?_, ?_, ?_⟩
  · have hne : c ≠ s.newSocket := by
      simp only at hc
      omega
    exact ⟨(h.fresh c hc).1, (Function.update_of_ne hne _ _).trans (h.fresh c hc).2⟩
  · intro clientId' he
    cases he
    exact ⟨hthread, Function.update_self _ _ _⟩
  · intro c t ht
    have hne : c ≠ s.newSocket := by
      rintro rfl
      rw [hthread] at ht
      cases ht
    obtain ⟨id, hid, hr⟩ := h.asked c t ht
    exact ⟨id, (Function.update_of_ne hne _ _).trans hid, hr⟩
  · intro c id routine hid hr
    by_cases hc : c = s.newSocket
    · subst hc
      simp only [Function.update_self] at hid
      cases hid
      exact Or.inr ⟨rfl, rfl⟩
    · simp only [Function.update_of_ne hc] at hid
      exact Or.inl (h.answered_thread (fun _ he => nomatch hpc.symm.trans he) hid hr)

theorem AcceptOk.created (h : AcceptOk s) (clientId : MsgIdentity) (routine : Routine)
    (hpc : s.pc = .createThread clientId) (hr : clientId.routine = some routine) : AcceptOk
    { s with
      pc := .accept
      thread := Function.update s.thread s.newSocket (some ⟨routine, none⟩) } := by
  have hlast := h.newSocket (h.started (by rw [hpc]; exact nofun))
  obtain ⟨hthread, hidentity⟩ := h.creating clientId hpc
  refine ⟨h.newSocket, fun he => absurd rfl he, fun c hc => ?_, fun he => (nomatch he),
    fun _ he => (nomatch he), ?_, ?_⟩
  · have hne : c ≠ s.newSocket := by
      simp only at hc
      omega
    exact ⟨(Function.update_of_ne hne _ _).trans (h.fresh c hc).1, (h.fresh c hc).2⟩
  · intro c t ht
    by_cases hc : c = s.newSocket
    · subst hc
      simp only [Function.update_self] at ht
      cases ht
      exact ⟨clientId, hidentity, hr⟩
    · simp only [Function.update_of_ne hc] at ht
      exact h.asked c t ht
  · intro c id r hid hr'
    left
    by_cases hc : c = s.newSocket
    · subst hc
      obtain rfl : id = clientId := Option.some.inj (hid.symm.trans hidentity)
      obtain rfl : r = routine := Option.some.inj (hr'.symm.trans hr)
      exact ⟨_, Function.update_self _ _ _, rfl⟩
    · obtain ⟨t, ht, hrt⟩ := (h.answered c id r hid hr').resolve_right fun he => hc he.2
      exact ⟨t, (Function.update_of_ne hc _ _).trans ht, hrt⟩

theorem AcceptOk.copied (h : AcceptOk s) (c : ℕ) (routine : Routine) (fd : ℕ)
    (ht : s.thread c = some ⟨routine, none⟩) : AcceptOk
    { s with thread := Function.update s.thread c (some ⟨routine, some fd⟩) } := by
  have hother : ∀ c', s.thread c' = none → c' ≠ c := by
    rintro c' hc' rfl
    rw [ht] at hc'
    cases hc'
  refine ⟨h.newSocket, h.started, fun c' hc' => ?_, fun he => ?_, fun id he => ?_, ?_, ?_⟩
  · obtain ⟨h1, h2⟩ := h.fresh c' hc'
    exact ⟨(Function.update_of_ne (hother c' h1) _ _).trans h1, h2⟩
  · obtain ⟨h1, h2⟩ := h.reading he
    exact ⟨(Function.update_of_ne (hother _ h1) _ _).trans h1, h2⟩
  · obtain ⟨h1, h2⟩ := h.creating id he
    exact ⟨(Function.update_of_ne (hother _ h1) _ _).trans h1, h2⟩
  · intro c' t' ht'
    by_cases hc : c' = c
    · subst hc
      simp only [Function.update_self] at ht'
      obtain rfl := Option.some.inj ht'
      exact h.asked c' ⟨routine, none⟩ ht
    · simp only [Function.update_of_ne hc] at ht'
      exact h.asked c' t' ht'
  · intro c' id r hid hr
    rcases h.answered c' id r hid hr with ⟨t', ht', hrt⟩ | he
    · left
      by_cases hc : c' = c
      · subst hc
        obtain rfl : t' = ⟨routine, none⟩ := Option.some.inj (ht'.symm.trans ht)
        exact ⟨_, Function.update_self _ _ _, hrt⟩
      · exact ⟨t', (Function.update_of_ne hc _ _).trans ht', hrt⟩
    · exact Or.inr he

/-- Every step keeps the bookkeeping. -/
theorem AcceptOk.step {a : AcceptAction} (h : AcceptOk s) (hs : AcceptStep s a s') :
    AcceptOk s' := by
  cases hs with
  | accept hpc => exact h.accept hpc
  | closed hpc =>
    exact h.back fun _ _ _ => h.answered_thread fun _ he => nomatch hpc.symm.trans he
  | identified clientId hpc => exact h.identified clientId hpc
  | created clientId routine hpc hr => exact h.created clientId routine hpc hr
  | refused clientId hpc hr =>
    refine h.back fun c id r hid hr' => (h.answered c id r hid hr').resolve_right ?_
    rintro ⟨he, -⟩
    rw [hpc] at he
    cases he
    exact nomatch hr.symm.trans hr'
  | copied c routine ht => exact h.copied c routine s.newSocket ht

/-! ## Threads that will serve the right connection, and threads that cannot any more -/

/-- Every thread has copied its own descriptor, or is the last one and `new_socket` still is. -/
def OnTrack (s : AcceptState) : Prop :=
  ∀ c t, s.thread c = some t → t.sock = some c ∨ (t.sock = none ∧ c + 1 = s.accepted)

/-- Some thread has copied another descriptor, or will: its own has been overwritten. -/
def Misled (s : AcceptState) : Prop :=
  ∃ c t, s.thread c = some t ∧
    ((∃ fd, t.sock = some fd ∧ fd ≠ c) ∨ (t.sock = none ∧ c + 1 < s.accepted))

/-- A thread once misled stays so. -/
theorem Misled.step {a : AcceptAction} (hok : AcceptOk s) (h : Misled s) (hs : AcceptStep s a s') :
    Misled s' := by
  obtain ⟨c, t, ht, hbad⟩ := h
  have hnext : ∀ s'' : AcceptState, s''.thread = s.thread → s.accepted ≤ s''.accepted →
      Misled s'' := by
    intro s'' hthread hacc
    refine ⟨c, t, by rw [hthread]; exact ht, ?_⟩
    rcases hbad with h | ⟨h, hlt⟩
    · exact Or.inl h
    · exact Or.inr ⟨h, by omega⟩
  cases hs with
  | accept hpc => exact hnext _ rfl (Nat.le_succ _)
  | closed hpc => exact hnext _ rfl (Nat.le_refl _)
  | identified clientId hpc => exact hnext _ rfl (Nat.le_refl _)
  | created clientId routine hpc hr =>
    have hne : c ≠ s.newSocket := by
      rintro rfl
      rw [(hok.creating clientId hpc).1] at ht
      cases ht
    exact ⟨c, t, (Function.update_of_ne hne _ _).trans ht, hbad⟩
  | refused clientId hpc hr => exact hnext _ rfl (Nat.le_refl _)
  | copied c' routine ht' =>
    by_cases hc : c = c'
    · subst hc
      obtain rfl : t = ⟨routine, none⟩ := Option.some.inj (ht.symm.trans ht')
      rcases hbad with ⟨fd, hfd, -⟩ | ⟨-, hlt⟩
      · cases hfd
      · have hlast := hok.newSocket (by omega)
        exact ⟨c, _, Function.update_self _ _ _, Or.inl ⟨s.newSocket, rfl, by omega⟩⟩
    · exact ⟨c, t, (Function.update_of_ne hc _ _).trans ht, hbad⟩

/-- Threads stay on track as long as no `accept` comes before a copy. -/
theorem OnTrack.step {a : AcceptAction} (hok : AcceptOk s) (h : OnTrack s)
    (hs : AcceptStep s a s') (hcopied : a = .accept → s.AllCopied) : OnTrack s' := by
  cases hs with
  | accept hpc =>
    intro c t ht
    rcases h c t ht with hc | ⟨hnone, -⟩
    · exact Or.inl hc
    · exact absurd hnone (hcopied rfl c t ht)
  | closed hpc => exact h
  | identified clientId hpc => exact h
  | created clientId routine hpc hr =>
    intro c t ht
    by_cases hc : c = s.newSocket
    · subst hc
      simp only [Function.update_self] at ht
      cases ht
      exact Or.inr ⟨rfl, hok.newSocket (hok.started (by rw [hpc]; exact nofun))⟩
    · simp only [Function.update_of_ne hc] at ht
      exact h c t ht
  | refused clientId hpc hr => exact h
  | copied c' routine ht' =>
    intro c t ht
    by_cases hc : c = c'
    · subst hc
      simp only [Function.update_self] at ht
      cases ht
      rcases h c _ ht' with hsock | ⟨-, hlast⟩
      · cases hsock
      · have := hok.newSocket (by omega)
        exact Or.inl (congrArg some (by omega))
    · simp only [Function.update_of_ne hc] at ht
      exact h c t ht

/-- An `accept` before some thread has copied misleads that thread. -/
theorem misled_of_accept (hok : AcceptOk s) (h : ¬ s.AllCopied) (hs : AcceptStep s .accept s') :
    Misled s' := by
  cases hs with
  | accept hpc =>
    simp only [AcceptState.AllCopied, not_forall, not_not] at h
    obtain ⟨c, t, ht, hnone⟩ := h
    have hlt : c < s.accepted := by
      by_contra hge
      rw [(hok.fresh c (by omega)).1] at ht
      cases ht
    exact ⟨c, t, ht, Or.inr ⟨hnone, by simp only; omega⟩⟩

/-- **Every run**: the bookkeeping holds, and its threads are on track or one is misled, according
to its `accept` steps. -/
theorem runAccept_spec (acts : List AcceptAction) : ∀ s, runAccept acts = some s →
    AcceptOk s ∧ (AcceptsAfterCopies acts → OnTrack s) ∧
      (¬ AcceptsAfterCopies acts → Misled s) := by
  induction acts using List.reverseRecOn with
  | nil =>
    intro s h
    obtain rfl := Option.some.inj h
    refine ⟨acceptOk_init, fun _ _ _ ht => (nomatch ht), fun hn => absurd ?_ hn⟩
    intro pre hpre
    have := hpre.length_le
    simp at this
  | append_singleton acts a ih =>
    intro s' h
    unfold runAccept at h
    rw [List.foldlM_append, Option.bind_eq_bind, Option.bind_eq_some_iff] at h
    obtain ⟨s, hrun, hnext⟩ := h
    have hnext : s.next a = some s' := by simpa using hnext
    have hs := acceptStep_of_next hnext
    obtain ⟨hok, htrack, hmisled⟩ := ih s hrun
    have hsplit : AcceptsAfterCopies (acts ++ [a]) ↔
        AcceptsAfterCopies acts ∧ (a = .accept → s.AllCopied) := by
      constructor
      · intro hall
        refine ⟨fun pre hpre => hall pre (hpre.trans (List.prefix_append _ _)), ?_⟩
        rintro rfl
        exact hall acts List.prefix_rfl s hrun
      · rintro ⟨hall, hlast⟩ pre hpre s₁ hs₁
        rcases List.prefix_concat_iff.mp hpre with heq | hpre
        · obtain ⟨rfl, ha⟩ := List.append_inj' heq rfl
          obtain rfl : s₁ = s := Option.some.inj (hs₁.symm.trans hrun)
          exact hlast (List.singleton_inj.mp ha).symm
        · exact hall pre hpre s₁ hs₁
    refine ⟨hok.step hs, fun hall => ?_, fun hnot => ?_⟩
    · obtain ⟨hall, hlast⟩ := hsplit.mp hall
      exact (htrack hall).step hok hs hlast
    · rw [hsplit, not_and] at hnot
      by_cases hall : AcceptsAfterCopies acts
      · have hbad := hnot hall
        rw [Classical.not_imp] at hbad
        obtain ⟨rfl, hcopied⟩ := hbad
        exact misled_of_accept hok hcopied hs
      · exact (hmisled hall).step hok hs

/-- **The hand-off, exactly.** When the loop is back at `accept` and every created thread has copied
its descriptor, each serves exactly the connection it was created for iff every `accept` of the run
was made after all threads created by then had copied theirs. -/
theorem handOff_iff (acts : List AcceptAction) (s : AcceptState) (hrun : runAccept acts = some s)
    (hpc : s.pc = .accept) (hcopied : s.AllCopied) : HandOff s ↔ AcceptsAfterCopies acts := by
  obtain ⟨hok, htrack, hmisled⟩ := runAccept_spec acts s hrun
  constructor
  · intro h
    by_contra hnot
    obtain ⟨c, t, ht, ⟨fd, hfd, hne⟩ | ⟨hnone, -⟩⟩ := hmisled hnot
    · exact hne (h.own c t fd ht hfd)
    · exact hcopied c t ht hnone
  · intro hall
    have hsock : ∀ c t, s.thread c = some t → t.sock = some c := by
      intro c t ht
      rcases htrack hall c t ht with hc | ⟨hnone, -⟩
      · exact hc
      · exact absurd hnone (hcopied c t ht)
    have hown : ∀ c t fd, s.thread c = some t → t.sock = some fd → fd = c := fun c t fd ht hfd =>
      (Option.some.inj ((hsock c t ht).symm.trans hfd)).symm
    refine ⟨hown, fun c c' t t' fd ht ht' hfd hfd' => ?_, fun c clientId routine hid hr => ?_,
      fun c t fd clientId ht hfd hid => ?_⟩
    · exact (hown c t fd ht hfd).symm.trans (hown c' t' fd ht' hfd')
    · rcases hok.answered c clientId routine hid hr with ⟨t, ht, hrt⟩ | ⟨he, -⟩
      · exact ⟨c, t, ht, hsock c t ht, hrt⟩
      · rw [hpc] at he
        cases he
    · obtain rfl := hown c t fd ht hfd
      obtain ⟨id, hid', hr⟩ := hok.asked fd t ht
      rwa [Option.some.inj (hid.symm.trans hid')]

/-- An observer and a user, each thread copying before the next `accept`. -/
def orderlyAccepts : List AcceptAction :=
  [.accept, .readIdentity (some .introObserver), .createThread, .copySocket 0,
    .accept, .readIdentity (some .introUser), .createThread, .copySocket 1]

/-- The same clients, the first thread starting late. -/
def hastyAccepts : List AcceptAction :=
  [.accept, .readIdentity (some .introObserver), .createThread,
    .accept, .readIdentity (some .introUser), .createThread, .copySocket 0, .copySocket 1]

/-- The threads of two connections. -/
def twoThreads (sock0 sock1 : ℕ) : ℕ → Option ServingThread :=
  Function.update (Function.update (fun _ => none) 0 (some ⟨.observerThread, some sock0⟩)) 1
    (some ⟨.userThread, some sock1⟩)

theorem twoThreads_cases {sock0 sock1 c : ℕ} {t : ServingThread}
    (h : twoThreads sock0 sock1 c = some t) :
    (c = 0 ∧ t = ⟨.observerThread, some sock0⟩) ∨ (c = 1 ∧ t = ⟨.userThread, some sock1⟩) := by
  unfold twoThreads at h
  by_cases h1 : c = 1
  · subst h1
    rw [Function.update_self] at h
    exact Or.inr ⟨rfl, (Option.some.inj h).symm⟩
  · rw [Function.update_of_ne h1] at h
    by_cases h0 : c = 0
    · subst h0
      rw [Function.update_self] at h
      exact Or.inl ⟨rfl, (Option.some.inj h).symm⟩
    · rw [Function.update_of_ne h0] at h
      cases h

/-- The state of two accepted clients, an observer and a user. -/
def twoClients (sock0 sock1 : ℕ) : AcceptState :=
  { pc := .accept, newSocket := 1, accepted := 2, thread := twoThreads sock0 sock1
    identity := Function.update (Function.update (fun _ => none) 0 (some .introObserver)) 1
      (some .introUser) }

theorem twoClients_allCopied (sock0 sock1 : ℕ) : (twoClients sock0 sock1).AllCopied := by
  intro c t ht
  rcases twoThreads_cases ht with ⟨-, rfl⟩ | ⟨-, rfl⟩ <;> exact Option.some_ne_none _

theorem runAccept_orderly : runAccept orderlyAccepts = some (twoClients 0 1) := by
  have hthread : ∀ t₀ t₁ u₀ u₁ : ServingThread,
      Function.update (Function.update (Function.update (Function.update
        (fun _ => none) 0 (some t₀)) 0 (some t₁)) 1 (some u₀)) 1 (some u₁) =
      Function.update (Function.update (fun _ : ℕ => none) 0 (some t₁)) 1 (some u₁) := by
    intro t₀ t₁ u₀ u₁
    rw [Function.update_idem, Function.update_idem]
  unfold twoClients twoThreads
  rw [← hthread ⟨.observerThread, none⟩ _ ⟨.userThread, none⟩]
  rfl

theorem handOff_iff_orderly : HandOff (twoClients 0 1) ↔ AcceptsAfterCopies orderlyAccepts :=
  handOff_iff orderlyAccepts (twoClients 0 1) runAccept_orderly rfl (twoClients_allCopied 0 1)

/-- **Two threads, one client**: the observer's thread copies the user's descriptor. -/
theorem handOff_broken : ∃ s, runAccept hastyAccepts = some s ∧ s.pc = .accept ∧ s.AllCopied ∧
    ¬ HandOff s := by
  refine ⟨twoClients 1 1, ?_, rfl, twoClients_allCopied 1 1, fun h => ?_⟩
  · have hthread : ∀ t₀ t₁ u₀ u₁ : ServingThread,
        Function.update (Function.update (Function.update (Function.update
          (fun _ => none) 0 (some t₀)) 1 (some u₀)) 0 (some t₁)) 1 (some u₁) =
        Function.update (Function.update (fun _ : ℕ => none) 0 (some t₁)) 1 (some u₁) := by
      intro t₀ t₁ u₀ u₁
      funext c
      simp only [Function.update_apply]
      split_ifs <;> rfl
    unfold twoClients twoThreads
    rw [← hthread ⟨.observerThread, none⟩ _ ⟨.userThread, none⟩]
    rfl
  · exact absurd (h.own 0 _ 1 rfl rfl) (by decide)

end C380.Notapp

import LanguageClient.Proofs.Host.Processes
import LanguageClient.Proofs.ServerProcess.Ledger
/-
  LanguageClient.Proofs.Host.Children — what a machine tells the client of its children.

  The client starts processes and asks for them. A child runs until it has ended, with an exit
  code or killed by a signal; the client is told so when it asks, however much later
  (`told_until_asked`), and only once (`told_once`): from then on the number is not known any
  more, and no other process ever has it. This is the table of the system that the exit codes
  of servers are derived from: whatever the client asks of a machine, the answer is one that the
  table allows when some processes have ended (`provide_agrees`).

  - `fate`: what the client is told. `Becomes` is what becomes of it while the client does not ask.
  - `afterAsking`: what is told once a process has been asked for.
  - `Agrees`: a table tells of every process what the machine tells.
-/

namespace LanguageClient.Host.Machine

open ServerProcess (Service)
open ServerProcess.Reaping (Table Entry Drift ask answer ages_exit drift_exit isQuiet)

variable {m m' : Machine} {pid : Nat} {code : Option Nat} {status : Status}

def fate (m : Machine) (pid : Nat) : Fate := (m.reap pid).1

theorem exists_fateOf (status : Status) : ∃ code, fateOf status = .ended code := by
  cases status with
  | exited code => exact ⟨some code, rfl⟩
  | killed s => exact ⟨none, rfl⟩

theorem reap_of_ended (hm : m.Sound) (h : (pid, client, status) ∈ m.ended) :
    m.reap pid = (fateOf status, { m with ended := m.ended.filter (·.1 != pid) }) := by
  unfold reap
  have hsome : (m.ended.find? fun e => e.1 == pid && e.2.1 == client).isSome = true :=
    List.find?_isSome.2 ⟨_, h, by simp⟩
  obtain ⟨e, hfind⟩ := Option.isSome_iff_exists.1 hsome
  have hmatch : e.1 = pid ∧ e.2.1 = client := by simpa using List.find?_some hfind
  obtain rfl := ended_unique hm (List.mem_of_find?_eq_some hfind) h hmatch.1.symm
  rw [hfind]

theorem find?_ended_eq_none : (m.ended.find? fun e => e.1 == pid && e.2.1 == client) = none ↔
    ∀ status, (pid, client, status) ∉ m.ended := by
  rw [List.find?_eq_none]
  constructor
  · exact fun h status hmem => h _ hmem (by simp)
  · rintro h ⟨k, parent, status⟩ hmem hmatch
    obtain ⟨rfl, rfl⟩ : k = pid ∧ parent = client := by simpa using hmatch
    exact h status hmem

theorem any_child_iff : (m.processes.any fun p => p.pid == pid && p.parent == client) = true ↔
    (pid, client) ∈ m.family := by
  simp [family, List.any_eq_true]

theorem reap_of_not_ended (h : ∀ status, (pid, client, status) ∉ m.ended) :
    m.reap pid = (if (pid, client) ∈ m.family then .running else .unknown, m) := by
  unfold reap
  rw [find?_ended_eq_none.2 h]
  simp only [← any_child_iff]

theorem fate_of_ended (hm : m.Sound) (h : (pid, client, status) ∈ m.ended) : m.fate pid = fateOf status :=
  congrArg Prod.fst (reap_of_ended hm h)

theorem fate_of_not_ended (h : ∀ status, (pid, client, status) ∉ m.ended) :
    m.fate pid = if (pid, client) ∈ m.family then .running else .unknown :=
  congrArg Prod.fst (reap_of_not_ended h)

theorem ended_of_fate (h : m.fate pid = .ended code) : ∃ status, (pid, client, status) ∈ m.ended := by
  by_contra hnone
  rw [fate_of_not_ended (not_exists.1 hnone)] at h
  split at h <;> cases h

theorem lt_of_fate (hm : m.Sound) (h : m.fate pid = .ended code) : pid < m.nextPid := by
  obtain ⟨status, hmem⟩ := ended_of_fate h
  exact (hm.given pid (List.mem_append_right _ (List.mem_map.2 ⟨_, hmem, rfl⟩))).2

/-! ## While the client asks for nothing -/

inductive Becomes : Fate → Fate → Prop
  | same (f : Fate) : Becomes f f
  | ends (code : Option Nat) : Becomes .running (.ended code)

theorem Becomes.eq_or {f f' : Fate} (h : Becomes f f') : f' = f ∨ f = .running ∧ ∃ code, f' = .ended code := by
  cases h with
  | same f => exact .inl rfl
  | ends code => exact .inr ⟨rfl, code, rfl⟩

theorem Becomes.of_ended {f : Fate} (h : Becomes (.ended code) f) : f = .ended code := by
  cases h
  rfl

theorem Becomes.of_unknown {f : Fate} (h : Becomes .unknown f) : f = .unknown := by
  cases h
  rfl

theorem Goes.fate (h : Goes m m') (hm : m.Sound) (pid : Nat) : Becomes (m.fate pid) (m'.fate pid) := by
  have hm' := h.sound hm
  by_cases hended : ∃ status, (pid, client, status) ∈ m.ended
  · obtain ⟨status, hmem⟩ := hended
    rw [fate_of_ended hm hmem, fate_of_ended hm' (h.kept pid status hmem)]
    exact .same _
  · rw [fate_of_not_ended (not_exists.1 hended)]
    by_cases hnow : ∃ status, (pid, client, status) ∈ m'.ended
    · obtain ⟨status, hmem⟩ := hnow
      obtain ⟨code, hcode⟩ := exists_fateOf status
      rw [fate_of_ended hm' hmem, hcode,
        if_pos ((h.ended pid status hmem).resolve_left fun hold => hended ⟨status, hold⟩)]
      exact .ends code
    · rw [fate_of_not_ended (not_exists.1 hnow)]
      have hfamily : (pid, client) ∈ m'.family ↔ (pid, client) ∈ m.family :=
        ⟨h.there pid, fun hthere => (h.stays pid hthere).resolve_right hnow⟩
      simp only [hfamily]
      exact .same _

/-! ## What the client asks for -/

/-- What is told of a process that is asked for again. -/
def askedAgain : Fate → Fate
  | .ended _ => .unknown
  | f => f

def afterAsking (f : Nat → Fate) (pid k : Nat) : Fate := if k = pid then askedAgain (f pid) else f k

theorem sound_forget (hm : m.Sound) (pid : Nat) : Sound { m with ended := m.ended.filter (·.1 != pid) } := by
  have hsub : List.Sublist (pids { m with ended := m.ended.filter (·.1 != pid) }) m.pids :=
    (List.Sublist.refl _).append (List.filter_sublist.map _)
  exact ⟨fun k => Nat.le_trans (hsub.count_le k) (hm.once k), fun k hmem => hm.given k (hsub.subset hmem), hm.next⟩

/-- A process that has ended is not there any more. -/
theorem not_there_of_ended (hm : m.Sound) (h : (pid, client, status) ∈ m.ended) : (pid, client) ∉ m.family := by
  intro hthere
  have hfamily : 0 < (m.family.map (·.1)).count pid := List.count_pos_iff.2 (List.mem_map.2 ⟨_, hthere, rfl⟩)
  have hended : 0 < (m.ended.map (·.1)).count pid := List.count_pos_iff.2 (List.mem_map.2 ⟨_, h, rfl⟩)
  have honce := hm.once pid
  rw [pids, List.count_append] at honce
  omega

theorem sound_reap (hm : m.Sound) (pid : Nat) : (m.reap pid).2.Sound := by
  by_cases hended : ∃ status, (pid, client, status) ∈ m.ended
  · obtain ⟨status, hmem⟩ := hended
    rw [reap_of_ended hm hmem]
    exact sound_forget hm pid
  · rw [reap_of_not_ended (not_exists.1 hended)]
    exact hm

theorem fate_forget {k : Nat} (h : k ≠ pid) :
    fate { m with ended := m.ended.filter (·.1 != pid) } k = m.fate k := by
  have hfind : ((m.ended.filter (·.1 != pid)).find? fun e => e.1 == k && e.2.1 == client) =
      m.ended.find? fun e => e.1 == k && e.2.1 == client := by
    rw [List.find?_filter]
    congr 1
    funext e
    by_cases hk : e.1 = k
    · have hpid : e.1 ≠ pid := hk ▸ h
      simp [hpid, Bool.beq_eq_decide_eq]
    · simp [hk]
  unfold fate reap
  simp only [hfind]
  split <;> rfl

theorem fate_reap (hm : m.Sound) (pid : Nat) : (m.reap pid).2.fate = afterAsking m.fate pid := by
  funext k
  unfold afterAsking
  by_cases hended : ∃ status, (pid, client, status) ∈ m.ended
  · obtain ⟨status, hmem⟩ := hended
    obtain ⟨code, hcode⟩ := exists_fateOf status
    rw [fate_of_ended hm hmem, hcode, reap_of_ended hm hmem]
    split_ifs with hk
    · subst hk
      have hnot : ∀ status, (k, client, status) ∉ m.ended.filter (·.1 != k) := fun status hmem => by
        simpa using (List.mem_filter.1 hmem).2
      rw [fate_of_not_ended (m := { m with ended := m.ended.filter (·.1 != k) }) hnot]
      exact if_neg (not_there_of_ended hm hmem)
    · exact fate_forget hk
  · rw [reap_of_not_ended (not_exists.1 hended)]
    show m.fate k = _
    split_ifs with hk
    · rw [hk, fate_of_not_ended (not_exists.1 hended)]
      split <;> rfl
    · rfl

/-- A new process has a number that was never asked for. -/
theorem not_ended_of_next (hm : m.Sound) (status : Status) : (m.nextPid, client, status) ∉ m.ended := fun hmem =>
  absurd (hm.given m.nextPid (List.mem_append_right _ (List.mem_map.2 ⟨_, hmem, rfl⟩))).2 (Nat.lt_irrefl _)

variable {p : Process}

theorem sound_enrol (hm : m.Sound) (hpid : p.pid = m.nextPid) : (m.enrol p).Sound := by
  have hperm := pids_enrol m p
  have hnew : p.pid ∉ m.pids := fun hmem => by
    have hold := (hm.given p.pid hmem).2
    omega
  refine ⟨fun pid => ?_, fun pid hmem => ?_, Nat.lt_succ_of_lt hm.next⟩
  · rw [hperm.count_eq, List.count_cons]
    have honce := hm.once pid
    split_ifs with heq
    · obtain rfl := eq_of_beq heq
      have hzero := List.count_eq_zero.2 hnew
      omega
    · exact honce
  · rcases List.mem_cons.1 (hperm.mem_iff.1 hmem) with rfl | hold
    · exact ⟨hpid ▸ hm.next, hpid ▸ Nat.lt_succ_self _⟩
    · have hgiven := hm.given pid hold
      exact ⟨hgiven.1, Nat.lt_succ_of_lt hgiven.2⟩

theorem fate_enrol (hm : m.Sound) (hpid : p.pid = m.nextPid) (hparent : p.parent = client) (k : Nat) :
    (m.enrol p).fate k = if k = p.pid then .running else m.fate k := by
  have hfamily : (k, client) ∈ (m.enrol p).family ↔ (k, client) ∈ m.family ∨ k = p.pid := by
    rw [mem_family_enrol, Prod.mk.injEq, hparent, and_iff_left rfl]
  by_cases hended : ∃ status, (k, client, status) ∈ m.ended
  · obtain ⟨status, hmem⟩ := hended
    have hne : k ≠ p.pid := fun heq => not_ended_of_next hm status (hpid ▸ heq ▸ hmem)
    rw [if_neg hne, fate_of_ended (sound_enrol hm hpid) hmem, fate_of_ended hm hmem]
  · have hstill : ∀ status, (k, client, status) ∉ (m.enrol p).ended := not_exists.1 hended
    rw [fate_of_not_ended (not_exists.1 hended), fate_of_not_ended hstill]
    simp only [hfamily]
    by_cases hk : k = p.pid
    · rw [if_pos (.inr hk), if_pos hk]
    · simp only [hk, or_false, if_false]

/-- Of two machines with the same processes the same is told. -/
theorem Idle.fate (h : Idle m m') : m'.fate = m.fate := by
  funext k
  unfold Machine.fate reap
  rw [h.ended, h.processes]
  split <;> rfl

theorem Idle.sound (h : Idle m m') (hm : m.Sound) : m'.Sound := (h.leads hm).sound hm

theorem launch_cases (hm : m.Sound) (l : Launch) :
    (∃ why, m.launch l = (.error why, m)) ∨
    ∃ s m', m.launch l = (.ok s, m') ∧ s.pid = m.nextPid ∧ m'.nextPid = m.nextPid + 1 ∧ m'.Sound ∧
      ∀ k, m'.fate k = if k = s.pid then .running else m.fate k := by
  unfold launch
  split
  next why _ => exact .inl ⟨_, rfl⟩
  next here _ =>
    dsimp only
    split
    next why _ => exact .inl ⟨_, rfl⟩
    next image _ =>
      have hidle : Idle m { m.addPipes.2 with
          nextOwn := m.nextOwn + 3
          own := [(m.nextOwn, Endpoint.writing m.addPipes.1.1), (m.nextOwn + 1, .reading m.addPipes.1.2.1),
            (m.nextOwn + 2, .reading m.addPipes.1.2.2)] ++ m.own } := ⟨rfl, rfl, rfl⟩
      refine .inr ⟨_, _, rfl, rfl, rfl, sound_enrol (hidle.sound hm) rfl, fun k => ?_⟩
      exact (fate_enrol (hidle.sound hm) rfl rfl k).trans (by rw [hidle.fate]; rfl)

/-! ## Every service -/

theorem idle_receive (m : Machine) (fd : Nat) : Idle m (m.receive fd).2 := by
  unfold receive
  split
  next pipe _ =>
    split_ifs
    · exact idle_draw m pipe readLimit
    · exact .refl m
    · exact .refl m
  next => exact .refl m

theorem idle_send (m : Machine) (fd : Nat) (bytes : Bytes) : Idle m (m.send fd bytes).2 := by
  unfold send
  split
  next pipe _ =>
    dsimp only
    split_ifs
    · exact .refl m
    · exact .refl m
    · exact idle_fill m pipe _
  next => exact .refl m

theorem leads_provide {q : Service} (hq : isQuiet q = true) : Leads m (m.provide q).2 := by
  cases q with
  | start _ => cases hq
  | reap _ => cases hq
  | collect _ => cases hq
  | surroundings => exact .refl m
  | receive fd => exact (idle_receive m fd).leads
  | send fd bytes => exact (idle_send m fd bytes).leads
  | awaitRoom fd others => exact leads_await m _ _
  | awaitBytes fds ms => exact leads_await m _ _
  | signal pid number => exact leads_signal m pid number
  | pause ms => exact leads_await m _ _
  | time => exact .refl m
  | close fd => exact Idle.leads ⟨rfl, rfl, rfl⟩
  | spent => exact .refl m

theorem reap_nextPid (m : Machine) (pid : Nat) : (m.reap pid).2.nextPid = m.nextPid := by
  unfold reap
  split <;> rfl

/-- No service uses a number twice. -/
theorem sound_provide (hm : m.Sound) (q : Service) :
    (m.provide q).2.Sound ∧ m.nextPid ≤ (m.provide q).2.nextPid := by
  cases hq : isQuiet q with
  | true => exact ⟨(leads_provide hq hm).sound hm, (leads_provide hq hm).next⟩
  | false =>
    cases q with
    | start l =>
      show (m.launch l).2.Sound ∧ m.nextPid ≤ (m.launch l).2.nextPid
      rcases launch_cases hm l with ⟨why, hlaunch⟩ | ⟨s, m', hlaunch, -, hnext, hsound, -⟩
      · rw [hlaunch]
        exact ⟨hm, Nat.le_refl _⟩
      · rw [hlaunch]
        exact ⟨hsound, hnext ▸ Nat.le_succ _⟩
    | reap pid => exact ⟨sound_reap hm pid, Nat.le_of_eq (reap_nextPid m pid).symm⟩
    | collect pid =>
      have hgoes := leads_await m (isOver pid) (-1) hm
      exact ⟨sound_reap (hgoes.sound hm) pid, Nat.le_trans hgoes.next (Nat.le_of_eq (reap_nextPid _ pid).symm)⟩
    | _ => cases hq

/-- A process that the client does not ask for is told of as before, but that it may have ended meanwhile. -/
theorem becomes_provide (hm : m.Sound) {q : Service} (hpid : pid < m.nextPid) (hreap : q ≠ .reap pid)
    (hcollect : q ≠ .collect pid) : Becomes (m.fate pid) ((m.provide q).2.fate pid) := by
  have hasking : ∀ {m' : Machine} {k : Nat}, Goes m m' → k ≠ pid → Becomes (m.fate pid) ((m'.reap k).2.fate pid) := by
    intro m' k hgoes hk
    rw [fate_reap (hgoes.sound hm), afterAsking, if_neg hk.symm]
    exact hgoes.fate hm pid
  cases hq : isQuiet q with
  | true => exact (leads_provide hq hm).fate hm pid
  | false =>
    cases q with
    | start l =>
      show Becomes _ ((m.launch l).2.fate pid)
      rcases launch_cases hm l with ⟨why, hlaunch⟩ | ⟨s, m', hlaunch, hs, -, -, hfate⟩
      · rw [hlaunch]
        exact .same _
      · rw [hlaunch, hfate, if_neg (by omega)]
        exact .same _
    | reap k => exact hasking (.refl m) fun hk => hreap (hk ▸ rfl)
    | collect k => exact hasking (leads_await m _ _ hm) fun hk => hcollect (hk ▸ rfl)
    | _ => cases hq

/-- What is not known any more stays unknown. -/
theorem unknown_provide (hm : m.Sound) (hpid : pid < m.nextPid) (h : m.fate pid = .unknown) (q : Service) :
    (m.provide q).2.fate pid = .unknown := by
  have hasked : ∀ {m' : Machine}, Goes m m' → (m'.reap pid).2.fate pid = .unknown := by
    intro m' hgoes
    have hstill : m'.fate pid = .unknown := (h ▸ hgoes.fate hm pid).of_unknown
    rw [fate_reap (hgoes.sound hm), afterAsking, if_pos rfl, hstill]
    rfl
  by_cases hreap : q = .reap pid
  · rw [hreap]
    exact hasked (.refl m)
  · by_cases hcollect : q = .collect pid
    · rw [hcollect]
      exact hasked (leads_await m _ _ hm)
    · exact (h ▸ becomes_provide hm hpid hreap hcollect).of_unknown

/-! ## Whole runs -/

/-- The machine after the client has asked for one service after the other. -/
def after (qs : List Service) (m : Machine) : Machine := qs.foldl (fun m q => (m.provide q).2) m

/-- An end is told however late the client asks. -/
theorem told_until_asked (hm : m.Sound) (h : m.fate pid = .ended code) {qs : List Service}
    (hqs : ∀ q ∈ qs, q ≠ .reap pid ∧ q ≠ .collect pid) : (m.after qs).fate pid = .ended code := by
  induction qs generalizing m with
  | nil => exact h
  | cons q qs ih =>
    obtain ⟨hreap, hcollect⟩ := hqs q List.mem_cons_self
    have hbecomes := becomes_provide hm (lt_of_fate hm h) hreap hcollect
    rw [h] at hbecomes
    exact ih (sound_provide hm q).1 hbecomes.of_ended fun q hq => hqs q (List.mem_cons_of_mem _ hq)

/-- The end of a process is told once. -/
theorem told_once (hm : m.Sound) (h : m.fate pid = .ended code) (qs : List Service) :
    ((m.reap pid).2.after qs).fate pid = .unknown := by
  have hlater : ∀ m' : Machine, m'.Sound → pid < m'.nextPid → m'.fate pid = .unknown →
      (m'.after qs).fate pid = .unknown := by
    induction qs with
    | nil => exact fun _ _ _ h => h
    | cons q qs ih =>
      intro m' hm' hpid h
      have hnext := sound_provide hm' q
      exact ih _ hnext.1 (Nat.lt_of_lt_of_le hpid hnext.2) (unknown_provide hm' hpid h q)
  refine hlater _ (sound_reap hm pid) (reap_nextPid m pid ▸ lt_of_fate hm h) ?_
  rw [fate_reap hm, afterAsking, if_pos rfl, h]
  rfl

/-! ## A wait without an end -/

/-- Nobody outlives being killed. -/
theorem pid_ne_of_kill (m : Machine) (pid : Nat) : ∀ q ∈ (m.signal pid SignalNumber.kill).2.processes, q.pid ≠ pid := by
  intro q hq
  unfold signal at hq
  split at hq
  next hnone => simpa using List.find?_eq_none.1 hnone q hq
  next p _ =>
    have hhit : p.hit SignalNumber.kill = none := by
      rw [Process.hit, if_pos (.inr rfl)]
      exact if_pos rfl
    simp only [hhit] at hq
    obtain ⟨q', hq', rfl⟩ := List.mem_map.1 hq
    have hne : q'.pid ≠ pid := by simpa using (List.mem_filter.1 hq').2
    split_ifs <;> exact hne

theorem elapse_of_done {done : Machine → Bool} (h : done m = true) (ms : Nat) : elapse done ms m = m := by
  cases ms with
  | zero => rfl
  | succ ms => exact if_pos h

/-- The wait for a process that is not there is short, and does not tell that the process runs. -/
theorem collect_ne_running (h : ∀ q ∈ m.processes, q.pid ≠ pid) : (m.provide (.collect pid)).1 ≠ .running := by
  have hover : isOver pid m = true := by simpa [isOver] using h
  have hnot : (pid, client) ∉ m.family := fun hmem => by
    obtain ⟨q, hq, heq⟩ := List.mem_map.1 hmem
    exact h q hq (Prod.mk.inj heq).1
  show (reap (elapse (isOver pid) _ m) pid).1 ≠ .running
  rw [elapse_of_done hover]
  unfold reap
  split
  next status _ => cases status <;> nofun
  next =>
    have hany : (m.processes.any fun p => p.pid == pid && p.parent == client) ≠ true := fun hany =>
      hnot (any_child_iff.1 hany)
    rw [if_neg hany]
    nofun

/-! ## The table of the system -/

def Agrees (m : Machine) (t : Table) : Prop := ∀ pid, (ask pid t).1 = m.fate pid

def entryFate (e : Entry) : Fate :=
  if e.isTold then .unknown
  else
    match e.ended with
    | none => .running
    | some code => .ended code

theorem ask_cons (k : Nat) (e : Entry) (t : Table) :
    (ask k (e :: t)).1 = if e.pid = k then entryFate e else (ask k t).1 := by
  unfold entryFate
  rw [ask]
  split_ifs
  · rfl
  · cases e.ended <;> rfl
  · rfl

theorem ask_cons_snd (pid : Nat) (e : Entry) (t : Table) :
    (ask pid (e :: t)).2 =
      if e.pid = pid then { e with isTold := e.isTold || e.ended.isSome } :: t else e :: (ask pid t).2 := by
  obtain ⟨k, ended, isTold⟩ := e
  rw [ask]
  split_ifs with hpid htold
  · obtain rfl : isTold = true := htold
    rfl
  · obtain rfl : isTold = false := by simpa using htold
    cases ended <;> rfl
  · rfl

theorem entryFate_exit (e : Entry) (pid : Nat) (code : Option Nat) :
    entryFate (e.exit pid code) = if e.pid = pid ∧ entryFate e = .running then .ended code else entryFate e := by
  obtain ⟨k, ended, isTold⟩ := e
  unfold Entry.exit entryFate
  cases isTold <;> cases ended <;> by_cases hk : k = pid <;> simp [hk]

/-- When a process ends, this is told of it and nothing else is told. -/
theorem ask_exit (t : Table) (pid k : Nat) (code : Option Nat) :
    (ask k (t.map (·.exit pid code))).1 =
      if k = pid ∧ (ask k t).1 = .running then .ended code else (ask k t).1 := by
  induction t with
  | nil => simp [ask]
  | cons e t ih =>
    have hsame : (e.exit pid code).pid = e.pid := (ages_exit e pid code).pid
    rw [List.map_cons, ask_cons, ask_cons, hsame]
    by_cases hk : e.pid = k
    · rw [if_pos hk, if_pos hk, entryFate_exit, hk]
    · rw [if_neg hk, if_neg hk, ih]

theorem ask_ask (t : Table) (pid k : Nat) : (ask k (ask pid t).2).1 = afterAsking (fun k => (ask k t).1) pid k := by
  unfold afterAsking
  induction t with
  | nil => split_ifs <;> rfl
  | cons e t ih =>
    simp only [ask_cons_snd, ask_cons]
    by_cases hpid : e.pid = pid
    · rw [if_pos hpid, if_pos hpid, ask_cons, hpid]
      by_cases hk : k = pid
      · rw [if_pos hk.symm, if_pos hk]
        obtain ⟨p, ended, isTold⟩ := e
        cases isTold <;> cases ended <;> rfl
      · rw [if_neg (Ne.symm hk), if_neg hk, if_neg (Ne.symm hk)]
    · rw [if_neg hpid, if_neg hpid, ask_cons, ih]
      by_cases hk : k = pid
      · rw [if_pos hk, if_pos hk, if_neg (hk ▸ hpid)]
      · rw [if_neg hk, if_neg hk]

theorem ask_of_not_mem {pid : Nat} {t : Table} (h : pid ∉ t.map (·.pid)) : (ask pid t).1 = .unknown := by
  induction t with
  | nil => rfl
  | cons e t ih =>
    rw [List.map_cons, List.mem_cons, not_or] at h
    rw [ask_cons, if_neg (Ne.symm h.1)]
    exact ih h.2

/-- The table after processes have ended one after the other. -/
def afterEnds (ends : List (Nat × Option Nat)) (t : Table) : Table :=
  ends.foldl (fun t e => t.map (·.exit e.1 e.2)) t

/-- Whatever becomes of the processes, some of them have ended. -/
theorem exists_ends {t : Table} {f : Nat → Fate} (h : ∀ k, Becomes (ask k t).1 (f k)) :
    ∃ ends, ∀ k, (ask k (afterEnds ends t)).1 = f k := by
  -- as many processes are looked at as the table has
  have key : ∀ (pids : List Nat) (t : Table), (∀ k, Becomes (ask k t).1 (f k)) →
      ∃ ends, ∀ k, (ask k (afterEnds ends t)).1 = if k ∈ pids then f k else (ask k t).1 := by
    intro pids
    induction pids with
    | nil => exact fun t _ => ⟨[], fun k => (if_neg List.not_mem_nil).symm⟩
    | cons pid pids ih =>
      intro t h
      rcases (h pid).eq_or with hsame | ⟨hrunning, code, hcode⟩
      · obtain ⟨ends, hends⟩ := ih t h
        refine ⟨ends, fun k => ?_⟩
        rw [hends]
        by_cases hk : k = pid <;> simp [hk, hsame]
      · have hexit : ∀ k, (ask k (t.map (·.exit pid code))).1 = if k = pid then f pid else (ask k t).1 := fun k => by
          rw [ask_exit, hcode]
          by_cases hk : k = pid <;> simp [hk, hrunning]
        obtain ⟨ends, hends⟩ := ih (t.map (·.exit pid code)) fun k => by
          rw [hexit]
          split_ifs with hk
          · exact hk ▸ .same _
          · exact h k
        refine ⟨(pid, code) :: ends, fun k => (hends k).trans ?_⟩
        rw [hexit]
        by_cases hk : k = pid <;> simp [hk]
  obtain ⟨ends, hends⟩ := key (t.map (·.pid)) t h
  refine ⟨ends, fun k => ?_⟩
  rw [hends]
  split_ifs with hmem
  · rfl
  · have hnone := ask_of_not_mem hmem
    rw [hnone]
    exact (hnone ▸ h k).of_unknown.symm

/-- Whatever the client asks for, some processes end, and then the answer is one that the table allows. -/
theorem provide_agrees {t : Table} (hm : m.Sound) (ha : Agrees m t) (q : Service)
    (hq : ∀ pid, q = .collect pid → (m.provide (.collect pid)).1 ≠ .running) :
    ∃ ends t', answer (afterEnds ends t) q (m.provide q).1 = some t' ∧ Agrees (m.provide q).2 t' := by
  have hends : ∀ {m' : Machine}, Goes m m' → ∃ ends, Agrees m' (afterEnds ends t) := fun hgoes =>
    exists_ends fun k => (ha k).symm ▸ hgoes.fate hm k
  -- asked for a process, the machine and the table forget the same
  have hasking : ∀ {m' : Machine} {t : Table} {pid : Nat}, m'.Sound → Agrees m' t →
      Agrees (m'.reap pid).2 (ask pid t).2 := fun hm' ha' k => by
    rw [ask_ask, fate_reap hm', show (fun k => (ask k _).1) = _ from funext ha']
  cases hquiet : isQuiet q with
  | true =>
    obtain ⟨ends, hagrees⟩ := hends (leads_provide hquiet hm)
    refine ⟨ends, _, ?_, hagrees⟩
    cases q <;> first | rfl | cases hquiet
  | false =>
    cases q with
    | start l =>
      refine ⟨[], ?_⟩
      show ∃ t', answer t (.start l) (m.launch l).1 = some t' ∧ Agrees (m.launch l).2 t'
      rcases launch_cases hm l with ⟨why, hlaunch⟩ | ⟨s, m', hlaunch, -, -, -, hfate⟩
      · rw [hlaunch]
        exact ⟨t, rfl, ha⟩
      · rw [hlaunch]
        refine ⟨_, rfl, fun k => ?_⟩
        rw [ask_cons, hfate, ← ha k]
        split_ifs with h₁ h₂ h₂
        · rfl
        · exact absurd h₁.symm h₂
        · exact absurd h₂.symm h₁
        · rfl
    | reap pid =>
      refine ⟨[], _, if_pos (ha pid).symm, hasking hm ha⟩
    | collect pid =>
      have hgoes := leads_await m (isOver pid) (-1) hm
      obtain ⟨ends, hagrees⟩ := hends hgoes
      exact ⟨ends, _, if_pos ⟨(hagrees pid).symm, hq pid rfl⟩, hasking (hgoes.sound hm) hagrees⟩
    | _ => cases hquiet

end LanguageClient.Host.Machine

import Mathlib.Data.List.Nodup
import Mathlib.Tactic.SplitIfs
import LanguageClient.Host.Parent
import LanguageClient.Host.Standard
/-
  LanguageClient.Proofs.Host.Processes — the process table of a machine.

  A process has its number as long as it is there, and after its end until its parent has asked
  how it ended. Every process of a machine runs a program that makes system calls, a shell with a
  script among them: it starts others, waits for them, sends signals and ends. Whatever they do,
  and however long they are left to it (`leads_await`), no number is used twice and none comes up
  again; a child of the client is there until it ends, and then is kept for the client to ask;
  nobody else's child becomes one of the client.

  A process that makes a call is not among the processes of the machine meanwhile; what the call
  does is said of the machine that the process is put back into.

  - `Sound`: the numbers in use are apart, and have been given.
  - `Goes`: what may become of the table while the client asks for nothing. `Leads` is what is known of
    a step: so it goes, if the numbers were apart, and then they still are.
  - `Idle`: files, pipes and time do not touch the table.
  - `leads_bury`: what an end does to it. `leads_serve` is the same for every system call.
-/

namespace LanguageClient.Host

namespace Process

structure Same (p p' : Process) : Prop where
  pid : p'.pid = p.pid
  parent : p'.parent = p.parent

theorem Same.refl (p : Process) : Same p p := ⟨rfl, rfl⟩

theorem Same.trans {p p' p'' : Process} (h : Same p p') (h' : Same p' p'') : Same p p'' :=
  ⟨h'.pid.trans h.pid, h'.parent.trans h.parent⟩

theorem same_hitOnce {p p' : Process} {s : SignalNumber} (h : p.hitOnce s = some p') : Same p p' := by
  unfold hitOnce at h
  repeat' split at h
  all_goals cases h
  all_goals exact ⟨rfl, rfl⟩

theorem same_hits {p p' : Process} (signals : List SignalNumber)
    (h : signals.foldl (fun p s => p.bind (hitOnce · s)) (some p) = some p') : Same p p' := by
  induction signals generalizing p with
  | nil =>
    cases h
    exact .refl _
  | cons s signals ih =>
    rw [List.foldl_cons, Option.bind_some] at h
    cases hs : p.hitOnce s with
    | none =>
      have hnone : ∀ ss : List SignalNumber, ss.foldl (fun p s => p.bind (hitOnce · s)) none = none := by
        intro ss
        induction ss with
        | nil => rfl
        | cons s ss ih => exact ih
      rw [hs, hnone] at h
      cases h
    | some p₁ =>
      rw [hs] at h
      exact (same_hitOnce hs).trans (ih h)

theorem same_hit {p p' : Process} {s : SignalNumber} (h : p.hit s = some p') : Same p p' := by
  unfold hit at h
  split at h
  · exact same_hitOnce h
  · split at h
    · have hawake : Same p { p with isStopped := false, held := [] } := ⟨rfl, rfl⟩
      exact hawake.trans (same_hits _ h)
    · cases h
      exact ⟨rfl, rfl⟩

end Process

namespace Machine

/-! ## The process table -/

def family (m : Machine) : List (Nat × Nat) := m.processes.map fun p => (p.pid, p.parent)

/-- The numbers that are in use: those of the processes that are there, and of those that have ended
and whose parents have not asked yet. -/
def pids (m : Machine) : List Nat := m.family.map (·.1) ++ m.ended.map (·.1)

theorem family_pids (m : Machine) : m.family.map (·.1) = m.processes.map (·.pid) := List.map_map

/-- No number is used twice or was not given yet. -/
structure Sound (m : Machine) : Prop where
  once : ∀ pid, m.pids.count pid ≤ 1
  given : ∀ pid ∈ m.pids, client < pid ∧ pid < m.nextPid
  next : client < m.nextPid

/-- On the usual host nothing runs at first, whatever is planted there. -/
theorem sound_standard (here : Place) (environment : List Bytes) (t : Tree) :
    Sound { standard here environment with tree := t } :=
  ⟨fun _ => Nat.zero_le 1, nofun, (by decide : client < 100)⟩

structure Goes (m m' : Machine) : Prop where
  next : m.nextPid ≤ m'.nextPid
  numbers : ∀ pid, m'.pids.count pid ≤ m.pids.count pid + if m.nextPid ≤ pid ∧ pid < m'.nextPid then 1 else 0
  /-- The client can still ask for a child that has ended. -/
  kept : ∀ pid status, (pid, client, status) ∈ m.ended → (pid, client, status) ∈ m'.ended
  /-- A child of the client stays there or ends. -/
  stays : ∀ pid, (pid, client) ∈ m.family → (pid, client) ∈ m'.family ∨ ∃ status, (pid, client, status) ∈ m'.ended
  /-- The client gets no new children. -/
  there : ∀ pid, (pid, client) ∈ m'.family → (pid, client) ∈ m.family
  ended : ∀ pid status, (pid, client, status) ∈ m'.ended →
    (pid, client, status) ∈ m.ended ∨ (pid, client) ∈ m.family

variable {m m' m'' : Machine} {p p' : Process}

theorem Goes.trans (h : Goes m m') (h' : Goes m' m'') : Goes m m'' where
  next := Nat.le_trans h.next h'.next
  numbers pid := by
    have h₁ := h.numbers pid
    have h₂ := h'.numbers pid
    have hn := h.next
    have hn' := h'.next
    split_ifs at h₁ h₂ ⊢ <;> omega
  kept pid status hmem := h'.kept pid status (h.kept pid status hmem)
  stays pid hmem := by
    rcases h.stays pid hmem with hthere | ⟨status, hended⟩
    · exact h'.stays pid hthere
    · exact .inr ⟨status, h'.kept pid status hended⟩
  there pid hmem := h.there pid (h'.there pid hmem)
  ended pid status hmem := by
    rcases h'.ended pid status hmem with hended | hthere
    · exact h.ended pid status hended
    · exact .inr (h.there pid hthere)

theorem Goes.sound (h : Goes m m') (hm : m.Sound) : m'.Sound where
  once pid := by
    have hcount := h.numbers pid
    have honce := hm.once pid
    split_ifs at hcount with hnew
    · have hnot : pid ∉ m.pids := fun hmem => absurd (hm.given pid hmem).2 (by omega)
      have hzero := List.count_eq_zero.2 hnot
      omega
    · omega
  given pid hmem := by
    have hcount := h.numbers pid
    have hpos := List.count_pos_iff.2 hmem
    have hnext := h.next
    have hfirst := hm.next
    split_ifs at hcount with hnew
    · omega
    · have hold := hm.given pid (List.count_pos_iff.1 (by omega))
      omega
  next := Nat.lt_of_lt_of_le hm.next h.next

/-- The same processes, in whatever order. -/
theorem Goes.of_perm (hfamily : m'.family.Perm m.family) (hended : m'.ended = m.ended)
    (hnext : m'.nextPid = m.nextPid) : Goes m m' where
  next := Nat.le_of_eq hnext.symm
  numbers pid := by
    have hpids : m'.pids.Perm m.pids := by
      rw [pids, pids, hended]
      exact (hfamily.map _).append_right _
    rw [hpids.count_eq]
    exact Nat.le_add_right _ _
  kept _ _ hmem := hended ▸ hmem
  stays _ hmem := .inl (hfamily.mem_iff.2 hmem)
  there _ hmem := hfamily.mem_iff.1 hmem
  ended _ _ hmem := .inl (hended ▸ hmem)

theorem Goes.refl (m : Machine) : Goes m m := .of_perm (.refl _) rfl rfl

def Leads (m m' : Machine) : Prop := m.Sound → Goes m m'

theorem Leads.refl (m : Machine) : Leads m m := fun _ => .refl m

theorem Leads.trans (h : Leads m m') (h' : Leads m' m'') : Leads m m'' := fun hm =>
  (h hm).trans (h' ((h hm).sound hm))

theorem Leads.foldl {α : Type} {f : Machine → α → Machine} (h : ∀ m a, Leads m (f m a)) (l : List α) (m : Machine) :
    Leads m (l.foldl f m) := by
  induction l generalizing m with
  | nil => exact .refl m
  | cons a l ih => exact (h m a).trans (ih (f m a))

/-! ## What leaves the table alone -/

structure Idle (m m' : Machine) : Prop where
  processes : m'.processes = m.processes
  ended : m'.ended = m.ended
  next : m'.nextPid = m.nextPid

theorem Idle.refl (m : Machine) : Idle m m := ⟨rfl, rfl, rfl⟩

theorem Idle.trans (h : Idle m m') (h' : Idle m' m'') : Idle m m'' :=
  ⟨h'.processes.trans h.processes, h'.ended.trans h.ended, h'.next.trans h.next⟩

theorem Idle.leads (h : Idle m m') : Leads m m' := fun _ =>
  .of_perm (by rw [family, family, h.processes]) h.ended h.next

theorem family_put (m : Machine) (p : Process) : (m.put p).family = m.family ++ [(p.pid, p.parent)] := by
  simp [family, put]

theorem pids_put (m : Machine) (p : Process) : (m.put p).pids.Perm (p.pid :: m.pids) := by
  rw [pids, family_put, List.map_append, List.append_assoc]
  exact List.perm_middle

theorem mem_family_put {k : Nat × Nat} : k ∈ (m.put p).family ↔ k ∈ m.family ∨ k = (p.pid, p.parent) := by
  rw [family_put, List.mem_append, List.mem_singleton]

theorem Sound.of_put (h : (m.put p).Sound) : m.Sound where
  once pid := by
    have honce := h.once pid
    rw [(pids_put m p).count_eq, List.count_cons] at honce
    omega
  given pid hmem := h.given pid ((pids_put m p).mem_iff.2 (List.mem_cons_of_mem _ hmem))
  next := h.next

/-- A process may stand by while the others go on. -/
theorem Leads.put (h : Leads m m') (hsame : p.Same p') : Leads (m.put p) (m'.put p') := fun hm => by
  have hgoes := h hm.of_put
  have hself : (p'.pid, p'.parent) = (p.pid, p.parent) := by rw [hsame.pid, hsame.parent]
  refine ⟨hgoes.next, fun pid => ?_, hgoes.kept, fun pid hmem => ?_, fun pid hmem => ?_, fun pid status hmem => ?_⟩
  · have hcount := hgoes.numbers pid
    rw [(pids_put m p).count_eq, (pids_put m' p').count_eq, List.count_cons, List.count_cons, hsame.pid]
    show _ ≤ _ + if m.nextPid ≤ pid ∧ pid < m'.nextPid then 1 else 0
    omega
  · rcases mem_family_put.1 hmem with hthere | heq
    · exact (hgoes.stays pid hthere).imp_left fun h => mem_family_put.2 (.inl h)
    · exact .inl (mem_family_put.2 (.inr (heq.trans hself.symm)))
  · rcases mem_family_put.1 hmem with hthere | heq
    · exact mem_family_put.2 (.inl (hgoes.there pid hthere))
    · exact mem_family_put.2 (.inr (heq.trans hself))
  · exact (hgoes.ended pid status hmem).imp_right fun h => mem_family_put.2 (.inl h)

theorem Idle.put (h : Idle m m') (hsame : p.Same p') : Leads (m.put p) (m'.put p') := h.leads.put hsame

theorem idle_storeAt (m : Machine) (place : Place) (b : Bytes) : Idle m (m.storeAt place b) := by
  unfold storeAt
  split <;> exact ⟨rfl, rfl, rfl⟩

theorem idle_storeTo (m : Machine) (b : Bytes) (o : Origin) : Idle m (m.storeTo b o) := by
  cases o with
  | place place => exact idle_storeAt m place b
  | removed id => exact ⟨rfl, rfl, rfl⟩

theorem idle_fill (m : Machine) (pipe : Nat) (b : Bytes) : Idle m (m.fill pipe b) := ⟨rfl, rfl, rfl⟩

theorem idle_draw (m : Machine) (pipe most : Nat) : Idle m (m.draw pipe most).2 := ⟨rfl, rfl, rfl⟩

theorem idle_addOpening (m : Machine) (f : OpenFile) : Idle m (m.addOpening f).2 := ⟨rfl, rfl, rfl⟩

theorem idle_removeAt (m : Machine) (place : Place) : Idle m (m.removeAt place) := ⟨rfl, rfl, rfl⟩

theorem idle_reopened {fd : Nat} {mode : Shell.OpenMode} {endpoint : Endpoint}
    (h : m.reopened p fd mode = .ok (endpoint, m')) : Idle m m' := by
  unfold reopened at h
  split at h
  next => cases h
  next => cases h; exact .refl _
  next => cases h; exact .refl _
  next => cases h; exact .refl _
  next opening _ =>
    split at h
    next => cases h
    next f _ =>
      cases h
      refine Idle.trans ?_ (idle_addOpening _ _)
      split
      · exact idle_storeTo m [] f.origin
      · exact .refl m

theorem idle_opened {path : Bytes} {mode : Shell.OpenMode} {endpoint : Endpoint}
    (h : m.opened p path mode = .ok (endpoint, m')) : Idle m m' := by
  unfold opened at h
  simp only at h
  split at h
  next place node _ =>
    split at h
    next => cases h
    next =>
      split at h
      next =>
        split at h
        · cases h; exact ⟨rfl, rfl, rfl⟩
        · cases h
      next => cases h
      next => exact idle_reopened h
      next => cases h; exact .refl _
      next =>
        split at h
        · cases h
        · cases h
          refine Idle.trans ?_ (idle_addOpening _ _)
          split
          · exact idle_storeAt m place []
          · exact .refl m
  next =>
    split at h
    · cases h
    · split at h
      · cases h
      · split at h
        · cases h
        · split at h
          · cases h
          · cases h; exact ⟨rfl, rfl, rfl⟩

/-! ## Ends -/

theorem family_bury (m : Machine) (p : Process) (status : Status) :
    (m.bury p status).family = m.family.map fun k => (k.1, if k.2 = p.pid then first else k.2) := by
  simp only [family, bury, List.map_map]
  refine List.map_congr_left fun q _ => ?_
  simp only [Function.comp_apply]
  split_ifs <;> rfl

theorem mem_family_bury {p : Process} (hp : p.pid ≠ client) {status : Status} {pid : Nat} :
    (pid, client) ∈ (m.bury p status).family ↔ (pid, client) ∈ m.family := by
  rw [family_bury, List.mem_map]
  constructor
  · rintro ⟨⟨q, parent⟩, hmem, heq⟩
    obtain ⟨rfl, hparent⟩ := Prod.mk.inj heq
    split_ifs at hparent
    · exact absurd hparent (by decide)
    · exact hparent ▸ hmem
  · exact fun hmem => ⟨(pid, client), hmem, by rw [if_neg hp.symm]⟩

theorem mem_ended_bury {p : Process} (hp : p.pid ≠ client) {status st : Status} {pid : Nat} :
    (pid, client, st) ∈ (m.bury p status).ended ↔
      (pid = p.pid ∧ client = p.parent ∧ st = status) ∨ (pid, client, st) ∈ m.ended := by
  show _ ∈ (if p.parent = first then [] else [(p.pid, p.parent, status)]) ++ m.ended.filter (·.2.1 != p.pid) ↔ _
  have hkept : (pid, client, st) ∈ m.ended.filter (·.2.1 != p.pid) ↔ (pid, client, st) ∈ m.ended := by
    rw [List.mem_filter, and_iff_left (bne_iff_ne.2 hp.symm)]
  rw [List.mem_append, hkept]
  split_ifs with hparent
  · have hfirst : client ≠ p.parent := hparent ▸ by decide
    simp only [List.not_mem_nil, hfirst, false_and, and_false]
  · rw [List.mem_singleton, Prod.mk.injEq, Prod.mk.injEq]

theorem count_pids_bury (m : Machine) (p : Process) (status : Status) (pid : Nat) :
    (m.bury p status).pids.count pid ≤ (m.put p).pids.count pid := by
  have hfamily : (m.bury p status).family.map (·.1) = m.family.map (·.1) := by
    rw [family_bury, List.map_map]
    rfl
  have hkept : ((m.ended.filter (·.2.1 != p.pid)).map (·.1)).Sublist (m.ended.map (·.1)) := List.filter_sublist.map _
  have htold : ((if p.parent = first then [] else [(p.pid, p.parent, status)]).map (·.1)).Sublist [p.pid] := by
    split_ifs
    · exact List.nil_sublist _
    · exact List.Sublist.refl _
  have hended : (m.bury p status).ended.map (·.1) =
      (if p.parent = first then [] else [(p.pid, p.parent, status)]).map (·.1) ++
        (m.ended.filter (·.2.1 != p.pid)).map (·.1) := List.map_append
  have hsub : (m.bury p status).pids.Sublist (m.family.map (·.1) ++ ([p.pid] ++ m.ended.map (·.1))) := by
    rw [pids, hfamily, hended]
    exact (List.Sublist.refl _).append (htold.append hkept)
  rw [(pids_put m p).count_eq]
  exact Nat.le_trans (hsub.count_le pid) (Nat.le_of_eq (List.perm_middle.count_eq pid))

/-- A process that ends leaves its number to its parent; its own children have another parent from then on. -/
theorem leads_bury (m : Machine) (p : Process) (status : Status) : Leads (m.put p) (m.bury p status) := by
  intro hm
  have hself : p.pid ∈ (m.put p).pids := (pids_put m p).mem_iff.2 List.mem_cons_self
  have hp : p.pid ≠ client := Nat.ne_of_gt (hm.given p.pid hself).1
  refine ⟨Nat.le_refl _, fun pid => Nat.le_trans (count_pids_bury m p status pid) (Nat.le_add_right _ _),
    ?_, ?_, ?_, ?_⟩
  · exact fun pid st hmem => (mem_ended_bury hp).2 (.inr hmem)
  · intro pid hmem
    rcases mem_family_put.1 hmem with hthere | heq
    · exact .inl ((mem_family_bury hp).2 hthere)
    · obtain ⟨rfl, hparent⟩ := Prod.mk.inj heq
      exact .inr ⟨status, (mem_ended_bury hp).2 (.inl ⟨rfl, hparent, rfl⟩)⟩
  · exact fun pid hmem => mem_family_put.2 (.inl ((mem_family_bury hp).1 hmem))
  · intro pid st hmem
    rcases (mem_ended_bury hp).1 hmem with ⟨rfl, hparent, -⟩ | hended
    · exact .inr (mem_family_put.2 (.inr (by rw [hparent])))
    · exact .inl hended

/-- The process that has a number. -/
theorem find?_processes {pid : Nat} (h : m.processes.find? (·.pid == pid) = some p) :
    p ∈ m.processes ∧ p.pid = pid :=
  ⟨List.mem_of_find?_eq_some h, by simpa using List.find?_some h⟩

/-- Numbers are apart, so a machine without a process is the machine before it was put there. -/
theorem perm_without (hm : m.Sound) (hp : p ∈ m.processes) :
    m.processes.Perm (m.processes.filter (·.pid != p.pid) ++ [p]) := by
  obtain ⟨before, after, hsplit⟩ := List.append_of_mem hp
  have honce := hm.once p.pid
  have hnot : ∀ q ∈ before ++ after, (q.pid != p.pid) = true := by
    intro q hq
    by_contra hne
    have heq : q.pid = p.pid := by simpa using hne
    have hmem : p.pid ∈ (before ++ after).map (·.pid) := heq ▸ List.mem_map_of_mem hq
    have hpids : m.pids.Perm (p.pid :: ((before ++ after).map (·.pid) ++ m.ended.map (·.1))) := by
      rw [pids, family_pids, hsplit, List.map_append, List.map_append, List.map_cons, List.append_assoc,
        List.append_assoc, List.cons_append]
      exact List.perm_middle
    have hcount := hpids.count_eq p.pid
    have hpos := List.count_pos_iff.2 (List.mem_append_left (m.ended.map (·.1)) hmem)
    rw [List.count_cons_self] at hcount
    omega
  rw [hsplit, List.filter_append, List.filter_cons_of_neg (by simp), ← List.filter_append, List.filter_eq_self.2 hnot]
  exact List.perm_middle.trans (List.perm_append_singleton p _).symm

theorem eq_of_pid (hm : m.Sound) {q : Process} (hp : p ∈ m.processes) (hq : q ∈ m.processes) (h : q.pid = p.pid) :
    q = p := by
  have hnodup : m.pids.Nodup := List.nodup_iff_count_le_one.2 hm.once
  rw [pids, family_pids] at hnodup
  exact List.inj_on_of_nodup_map hnodup.of_append_left hq hp h

theorem ended_unique (hm : m.Sound) {e e' : Nat × Nat × Status} (he : e ∈ m.ended) (he' : e' ∈ m.ended)
    (h : e'.1 = e.1) : e' = e := by
  have hnodup : m.pids.Nodup := List.nodup_iff_count_le_one.2 hm.once
  exact List.inj_on_of_nodup_map hnodup.of_append_right he' he h

/-- A process that is taken out and put back. -/
theorem leads_without (hp : p ∈ m.processes) :
    Leads m (({ m with processes := m.processes.filter (·.pid != p.pid) } : Machine).put p) := fun hm =>
  .of_perm ((perm_without hm hp).map _).symm rfl rfl

theorem leads_signal (m : Machine) (pid : Nat) (s : SignalNumber) : Leads m (m.signal pid s).2 := by
  unfold signal
  split
  next => exact .refl m
  next p hfind =>
    obtain ⟨hmem, rfl⟩ := find?_processes hfind
    split
    next p' hhit =>
      have hsame := Process.same_hit hhit
      intro hm
      refine .of_perm (.of_eq ?_) rfl rfl
      rw [family, family, List.map_map]
      refine List.map_congr_left fun q hq => ?_
      simp only [Function.comp_apply]
      split_ifs with hpid
      · rw [eq_of_pid hm hmem hq hpid, hsame.pid, hsame.parent]
      · rfl
    next => exact (leads_without hmem).trans (leads_bury _ p (.killed s))

/-! ## System calls -/

/-- How a process table goes on when a call of a process that is not in it is served. -/
def Served.Leads (m : Machine) (p : Process) {c : SystemCall} : Served c → Prop
  | .answer _ p' m' => Machine.Leads (m.put p) (m'.put p')
  | .waits p' m' => Machine.Leads (m.put p) (m'.put p')
  | .replaced p' m' => Machine.Leads (m.put p) (m'.put p')
  | .ended m' => Machine.Leads (m.put p) m'

theorem leads_read (fd most : Nat) : (m.read p fd most).Leads m p := by
  have hself : Leads (m.put p) (m.put p) := .refl _
  unfold read
  split
  next => exact hself
  next => exact hself
  next => exact hself
  next =>
    split
    next => exact hself
    next =>
      simp only
      repeat' split
      all_goals first | exact hself | exact Idle.put ⟨rfl, rfl, rfl⟩ (.refl p)
  next =>
    split
    next => exact Idle.put (idle_draw m _ most) (.refl p)
    next =>
      repeat' split
      all_goals exact hself

theorem leads_write (fd : Nat) (bytes : Bytes) : (m.write p fd bytes).Leads m p := by
  have hself : Leads (m.put p) (m.put p) := .refl _
  unfold write
  split
  next => exact hself
  next => exact hself
  next => exact hself
  next =>
    split
    next => exact hself
    next f _ =>
      split
      next => exact hself
      next => exact Idle.put ((idle_storeTo m _ f.origin).trans ⟨rfl, rfl, rfl⟩) (.refl p)
  next pipe _ =>
    split
    next =>
      split
      next p' hhit => exact Idle.put (.refl m) ((Process.same_hit hhit).trans ⟨rfl, rfl⟩)
      next => exact leads_bury m p _
    next =>
      have hfilled : Idle m (if bytes.drop p.written = [] then m else m.fill pipe (bytes.drop p.written)) := by
        split_ifs
        · exact .refl m
        · exact idle_fill m pipe _
      simp only
      generalize (if bytes.drop p.written = [] then m else m.fill pipe (bytes.drop p.written)) = m' at hfilled
      split_ifs
      all_goals exact Idle.put hfilled ⟨rfl, rfl⟩

theorem leads_openFile (path : Bytes) (mode : Shell.OpenMode) : (m.openFile p path mode).Leads m p := by
  unfold openFile
  split
  next => exact Leads.refl _
  next hopened => exact Idle.put (idle_opened hopened) ⟨rfl, rfl⟩

theorem leads_changeEndpoint (c : DescriptorChange) : (m.changeEndpoint p c).Leads m p := by
  unfold changeEndpoint
  repeat' split
  all_goals exact Idle.put (.refl m) ⟨rfl, rfl⟩

/-- A new process is there, with the next number. -/
def enrol (m : Machine) (p : Process) : Machine := ({ m with nextPid := m.nextPid + 1 } : Machine).put p

theorem family_enrol (m : Machine) (p : Process) : (m.enrol p).family = m.family ++ [(p.pid, p.parent)] :=
  family_put _ p

theorem pids_enrol (m : Machine) (p : Process) : (m.enrol p).pids.Perm (p.pid :: m.pids) := pids_put _ p

theorem mem_family_enrol {k : Nat × Nat} : k ∈ (m.enrol p).family ↔ k ∈ m.family ∨ k = (p.pid, p.parent) :=
  mem_family_put

theorem leads_enrol (hpid : p.pid = m.nextPid) (hparent : m.Sound → p.parent ≠ client) : Leads m (m.enrol p) :=
  fun hm => by
    have hnot : ∀ pid, (pid, client) ≠ (p.pid, p.parent) := fun pid heq => hparent hm (Prod.mk.inj heq).2.symm
    refine ⟨Nat.le_succ _, fun pid => ?_, fun _ _ hmem => hmem, fun pid hmem => .inl (mem_family_enrol.2 (.inl hmem)),
      fun pid hmem => (mem_family_enrol.1 hmem).resolve_right (hnot pid), fun _ _ hmem => .inl hmem⟩
    rw [(pids_enrol m p).count_eq, List.count_cons, hpid]
    show m.pids.count pid + _ ≤ _ + if m.nextPid ≤ pid ∧ pid < m.nextPid + 1 then 1 else 0
    simp only [beq_iff_eq]
    split_ifs <;> omega

theorem leads_fork (j : Job) : (m.fork p j).Leads m p := by
  let child : Process :=
    { p with
      pid := m.nextPid, parent := p.pid, shell := j.shell, program := j.code.program, arrived := [], written := 0 }
  have hparent : (m.put p).Sound → child.parent ≠ client := fun hm =>
    Nat.ne_of_gt (hm.given p.pid ((pids_put m p).mem_iff.2 List.mem_cons_self)).1
  have hfamily : ((m.enrol child).put p).family.Perm ((m.put p).enrol child).family := by
    rw [family_put, family_enrol, family_enrol, family_put, List.append_assoc, List.append_assoc]
    exact (List.Perm.swap _ _ []).append_left m.family
  exact (leads_enrol (m := m.put p) (p := child) rfl hparent).trans fun _ => .of_perm hfamily rfl rfl

theorem leads_execute (path : Bytes) (argv : List Bytes) (env : List (Bytes × Bytes)) :
    (m.execute p path argv env).Leads m p := by
  unfold execute
  split
  next => exact Leads.refl _
  next => exact Idle.put (.refl m) ⟨rfl, rfl⟩

theorem of_foldl_eq_some {α β : Type} {f : Option β → α → Option β} {g : α → β} {l : List α} {found : Option β} {b : β}
    (h : l.foldl f found = some b) (hf : ∀ found a, f found a = found ∨ f found a = some (g a)) :
    found = some b ∨ ∃ a ∈ l, g a = b := by
  induction l generalizing found with
  | nil => exact .inl h
  | cons a l ih =>
    rcases ih h with heq | ⟨a', ha', heq⟩
    · rcases hf found a with hkept | hnew
      · exact .inl (hkept.symm.trans heq)
      · exact .inr ⟨a, List.mem_cons_self, Option.some.inj (hnew.symm.trans heq)⟩
    · exact .inr ⟨a', List.mem_cons_of_mem a ha', heq⟩

theorem mem_of_firstEnded {parent pid : Nat} {status : Status} (h : m.firstEnded parent = some (pid, status)) :
    (pid, parent, status) ∈ m.ended := by
  have hfound : (none : Option (Nat × Status)) = some (pid, status) ∨
      ∃ e ∈ m.ended.filter (·.2.1 == parent), (e.1, e.2.2) = (pid, status) := by
    refine of_foldl_eq_some h fun found e => ?_
    cases found with
    | none => exact .inr rfl
    | some k =>
      simp only
      split_ifs
      · exact .inr rfl
      · exact .inl rfl
  rcases hfound with hnone | ⟨⟨k, q, st⟩, hmem, heq⟩
  · cases hnone
  · obtain ⟨hended, hparent⟩ := List.mem_filter.1 hmem
    obtain ⟨rfl, rfl⟩ := Prod.mk.inj heq
    exact eq_of_beq hparent ▸ hended

/-- What was told to its parent is not told again; the client is another parent. -/
theorem leads_forget {pid parent : Nat} {status : Status} (hmem : (pid, parent, status) ∈ m.ended)
    (hparent : m.Sound → parent ≠ client) : Leads m { m with ended := m.ended.filter (·.1 != pid) } := fun hm => by
  have hsub : (m.ended.filter (·.1 != pid)).Sublist m.ended := List.filter_sublist
  refine ⟨Nat.le_refl _, fun k => ?_, fun k st hk => ?_, fun _ hk => .inl hk, fun _ hk => hk,
    fun _ _ hk => .inl (hsub.subset hk)⟩
  · exact Nat.le_trans (((List.Sublist.refl _).append (hsub.map _)).count_le k) (Nat.le_add_right _ _)
  · refine List.mem_filter.2 ⟨hk, bne_iff_ne.2 fun heq => hparent hm ?_⟩
    have hentry := ended_unique hm hmem hk heq
    exact (Prod.mk.inj (Prod.mk.inj hentry).2).1.symm

theorem leads_waitFor (patience : Patience) : (m.waitFor p patience).Leads m p := by
  unfold waitFor
  split
  next pid status hfirst =>
    exact leads_forget (m := m.put p) (mem_of_firstEnded hfirst) fun hm =>
      Nat.ne_of_gt (hm.given p.pid ((pids_put m p).mem_iff.2 List.mem_cons_self)).1
  next =>
    split_ifs
    all_goals exact Leads.refl _

theorem leads_kill (target : Int) (s : SignalNumber) : (m.kill p target s).Leads m p := by
  -- the others are hit first, while the process that sends the signal stands by
  have hsignals := Leads.foldl (fun m pid => leads_signal m pid s) (m.targets target) m
  unfold kill
  simp only
  generalize (m.targets target).foldl (fun m pid => (m.signal pid s).2) m = m' at hsignals
  have hheard : p.Same (if m.ended.length < m'.ended.length && p.disposition SignalNumber.child == .caught then
      { p with arrived := p.arrived ++ [SignalNumber.child] } else p) := by
    split_ifs
    · exact ⟨rfl, rfl⟩
    · exact .refl p
  generalize (if m.ended.length < m'.ended.length && p.disposition SignalNumber.child == .caught then
      ({ p with arrived := p.arrived ++ [SignalNumber.child] } : Process) else p) = p' at hheard
  split_ifs
  · exact Leads.refl _
  · exact Leads.refl _
  · exact Leads.refl _
  · split
    next p'' hhit => exact hsignals.put (hheard.trans (Process.same_hit hhit))
    next => exact (hsignals.put hheard).trans (leads_bury m' p' _)
  · exact hsignals.put hheard

theorem leads_sleep (ms : Nat) : (m.sleep p ms).Leads m p := by
  unfold sleep
  repeat' split
  all_goals exact Idle.put (.refl m) ⟨rfl, rfl⟩

theorem leads_enter (directory : Bytes) : (m.enter p directory).Leads m p := by
  unfold enter
  repeat' split
  all_goals exact Idle.put (.refl m) ⟨rfl, rfl⟩

theorem leads_unlink (path : Bytes) : (m.unlink p path).Leads m p := by
  unfold unlink
  repeat' split
  all_goals first | exact Leads.refl _ | exact Idle.put (idle_removeAt m _) (.refl p)

theorem leads_removeDirectory (path : Bytes) : (m.removeDirectory p path).Leads m p := by
  unfold removeDirectory
  repeat' split
  all_goals exact Idle.put ⟨rfl, rfl, rfl⟩ (.refl p)

theorem leads_serve (c : SystemCall) : (m.serve p c).Leads m p := by
  have hself : ∀ {p' : Process}, p.Same p' → Leads (m.put p) (m.put p') := fun h => Idle.put (.refl m) h
  cases c with
  | read fd most => exact leads_read fd most
  | write fd bytes => exact leads_write fd bytes
  | openFile path mode => exact leads_openFile path mode
  | change c => exact leads_changeEndpoint c
  | duplicate fd least =>
    show (m.duplicate p fd least).Leads m p
    unfold duplicate
    split
    all_goals exact hself ⟨rfl, rfl⟩
  | pipe => exact Idle.put ⟨rfl, rfl, rfl⟩ ⟨rfl, rfl⟩
  | fork j => exact leads_fork j
  | execute path argv env => exact leads_execute path argv env
  | wait patience => exact leads_waitFor patience
  | kill target s => exact leads_kill target s
  | self => exact hself ⟨rfl, rfl⟩
  | enter directory => exact leads_enter directory
  | whereAmI => exact hself ⟨rfl, rfl⟩
  | mask new => exact hself ⟨rfl, rfl⟩
  | limits => exact hself ⟨rfl, rfl⟩
  | limit letter soft hard =>
    show (m.limit p letter soft hard).Leads m p
    unfold limit
    split
    all_goals exact hself ⟨rfl, rfl⟩
  | sleep ms => exact leads_sleep ms
  | dispose s d =>
    refine hself ?_
    split_ifs
    all_goals exact ⟨rfl, rfl⟩
  | isIgnored s => exact hself ⟨rfl, rfl⟩
  | signals => exact hself ⟨rfl, rfl⟩
  | unlink path => exact leads_unlink path
  | removeDirectory path => exact leads_removeDirectory path
  | list directory =>
    show (m.list p directory).Leads m p
    unfold list
    repeat' split
    all_goals exact hself ⟨rfl, rfl⟩
  | inspect path follow => exact hself ⟨rfl, rfl⟩
  | isPipe fd => exact hself ⟨rfl, rfl⟩

/-! ## Time -/

theorem leads_go (done : Machine → Bool) (n : Nat) (m : Machine) (p : Process) : Leads (m.put p) (go done n m p) := by
  induction n generalizing m p with
  | zero => exact .refl _
  | succ n ih =>
    have hself : Leads (m.put p) (m.put p) := .refl _
    have hgo : ∀ {m' : Machine} {p' p'' : Process}, Leads (m.put p) (m'.put p') → p'.Same p'' →
        Leads (m.put p) (go done n m' p'') := fun h hsame => (h.trans (Idle.put (.refl _) hsame)).trans (ih _ _)
    unfold go
    split
    next => exact leads_bury m p _
    next => exact hgo hself ⟨rfl, rfl⟩
    next => exact hgo hself ⟨rfl, rfl⟩
    next => exact hgo hself ⟨rfl, rfl⟩
    next c next _ =>
      have hserved := leads_serve (m := m) (p := p) c
      generalize m.serve p c = served at hserved
      cases served with
      | answer r p' m' =>
        have hnext : Leads (m.put p) (m'.put { p' with program := next r }) :=
          Leads.trans hserved (Idle.put (.refl _) ⟨rfl, rfl⟩)
        dsimp only
        split_ifs
        · exact hnext
        · -- it is put first and not last
          refine hnext.trans fun _ => .of_perm ?_ rfl rfl
          rw [family_put]
          exact (List.perm_append_singleton _ _).symm
        · exact hgo hserved ⟨rfl, rfl⟩
      | waits p' m' => exact hserved
      | replaced p' m' => exact hserved
      | ended m' => exact hserved

theorem leads_goOn (done : Machine → Bool) (m : Machine) (pid : Nat) : Leads m (m.goOn done pid) := by
  unfold goOn
  split
  next => exact .refl m
  next p hfind =>
    obtain ⟨hmem, rfl⟩ := find?_processes hfind
    split_ifs
    · exact .refl m
    · exact (leads_without hmem).trans (leads_go done _ _ p)

theorem leads_round (done : Machine → Bool) (m : Machine) : Leads m (m.round done) :=
  Leads.foldl (leads_goOn done) _ m

theorem leads_elapse (done : Machine → Bool) (ms : Nat) (m : Machine) : Leads m (elapse done ms m) := by
  induction ms generalizing m with
  | zero => exact .refl m
  | succ ms ih =>
    unfold elapse
    simp only
    split_ifs
    · exact .refl m
    · exact leads_round done m
    · have hclock : Idle (m.round done) { m.round done with now := (m.round done).now + 1 } := ⟨rfl, rfl, rfl⟩
      exact (leads_round done m).trans (hclock.leads.trans (ih _))

theorem leads_await (m : Machine) (done : Machine → Bool) (ms : Int) : Leads m (m.await done ms) := leads_elapse _ _ m

end Machine
end LanguageClient.Host

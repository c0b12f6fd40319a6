import LanguageClient.Proofs.Client.StderrTail
/-
  LanguageClient.Proofs.Client.StderrLines — every line of a server's error output is logged once.

  The error output comes in chunks that may end anywhere, in the middle of a line or between
  the two bytes of its end. However it comes, what is logged of it are its lines, each once
  and in order: a complete line without the carriage return it may end in, unless nothing is
  left of it then, and when the process has ended the line that was not complete, as it is
  (`lines_logged`).

  - `Cut`: a text, its complete lines, and the line that is not complete.
  - `LogsLines`: what holds all along while the server is neither started nor stopped.
-/

namespace LanguageClient.Client

open Routine Operations

variable {η : Type} {read : Bytes → Except Frame.Dropped Message} {c : Client η}

/-! ## Lines of a text -/

/-- A text consists of complete lines, each with a line feed at its end, and a line that is not
complete. -/
structure Cut (s : Bytes) (lines : List Bytes) (rest : Bytes) : Prop where
  joined : s = lines.flatMap (· ++ [Byte.lf]) ++ rest
  whole : ∀ line ∈ lines, Byte.lf ∉ line
  unended : Byte.lf ∉ rest

theorem cut_nil : Cut [] [] [] := ⟨rfl, by simp, by simp⟩

/-- What follows a line that is not complete goes on with it. -/
theorem Cut.append {s t rest rest' : Bytes} {lines lines' : List Bytes} (h : Cut s lines rest)
    (h' : Cut (rest ++ t) lines' rest') : Cut (s ++ t) (lines ++ lines') rest' := by
  refine ⟨?_, fun line hline => (List.mem_append.1 hline).elim (h.whole line) (h'.whole line), h'.unended⟩
  rw [h.joined, List.append_assoc, h'.joined, List.flatMap_append, List.append_assoc]

theorem splitLines_of_unended {rest : Bytes} (h : Byte.lf ∉ rest) : splitLines rest = ([], rest) := by
  simp [splitLines, List.splitOn_eq_singleton h]

theorem splitLines_line {line : Bytes} (h : Byte.lf ∉ line) (s : Bytes) :
    splitLines (line ++ Byte.lf :: s) = (line :: (splitLines s).1, (splitLines s).2) := by
  have hsplit : (line ++ Byte.lf :: s).splitOn Byte.lf = line :: s.splitOn Byte.lf := by
    rw [List.splitOn_append_cons_self, List.splitOn_eq_singleton h]
    rfl
  have hne := List.splitOn_ne_nil Byte.lf s
  simp only [splitLines, hsplit, List.dropLast_cons_of_ne_nil hne, List.getLast?_cons_of_ne_nil hne]

/-- The lines that are split off are the lines of the text. -/
theorem cut_splitLines (s : Bytes) : Cut s (splitLines s).1 (splitLines s).2 := by
  by_cases h : Byte.lf ∈ s
  · obtain ⟨line, later, hs, hline⟩ := List.eq_append_cons_of_mem h
    have hlater := cut_splitLines later
    rw [hs, splitLines_line hline]
    refine ⟨?_, List.forall_mem_cons.2 ⟨hline, hlater.whole⟩, hlater.unended⟩
    rw [List.flatMap_cons, List.append_assoc, ← hlater.joined, List.append_assoc]
    rfl
  · rw [splitLines_of_unended h]
    exact ⟨rfl, by simp, h⟩
  termination_by s.length
  decreasing_by
    rw [hs, List.length_append, List.length_cons]
    omega

/-! ## What is logged of them -/

def lineCare : Care := ⟨False, True, False, False⟩

/-- The restraint on operations whose log is a part of the state. -/
abbrev lineRestraint (η : Type) : Restraint (Client η × List Log.Entry) (Calls η) :=
  (sparing lineCare Call.NoSpawn).logged

def errorEntries (log : List Log.Entry) : List Log.Entry := log.filter fun e => e.source = text "stderr"

theorem errorEntries_append (log log' : List Log.Entry) :
    errorEntries (log ++ log') = errorEntries log ++ errorEntries log' := List.filter_append log log'

theorem lineEntries_append (c : Client η) (lines lines' : List Bytes) :
    c.lineEntries (lines ++ lines') = c.lineEntries lines ++ c.lineEntries lines' := by
  simp only [lineEntries, List.map_append, List.filter_append]

theorem lineEntries_congr {c' : Client η} (h : c'.config = c.config) (lines : List Bytes) :
    c'.lineEntries lines = c.lineEntries lines := by
  have hentry : c'.stderrEntry = c.stderrEntry := by
    funext line
    rw [stderrEntry, stderrEntry, h]
  rw [lineEntries, lineEntries, hentry]

theorem errorEntries_lineEntries (c : Client η) (lines : List Bytes) :
    errorEntries (c.lineEntries lines) = c.lineEntries lines := by
  refine List.filter_eq_self.2 fun e he => ?_
  obtain ⟨line, _, rfl⟩ := List.mem_map.1 he
  exact decide_eq_true rfl

/-- What is logged of the line that is not complete when the process ends. -/
def lastEntries (c : Client η) (rest : Bytes) : List Log.Entry := if rest = [] then [] else [c.stderrEntry rest]

def Deed.Undisturbing : Deed η → Prop
  | .use (.start _) => False
  | .use (.stop _) => False
  | .use (.exit _) => False
  | .connect .. => False
  | .ended _ => False
  | _ => True

theorem Deed.Undisturbing.not_stops {d : Deed η} (h : d.Undisturbing) : ¬ d.Stops := by
  cases d with
  | use u => cases u <;> first | exact id | exact h.elim
  | _ => exact id

theorem Deed.Undisturbing.allowed {d : Deed η} (h : d.Undisturbing) (herrors : ∀ chunk, d ≠ .use (.errors chunk)) :
    d.Allowed lineCare c := by
  cases d with
  | use u =>
    cases u with
    | errors chunk => exact absurd rfl (herrors chunk)
    | world l => exact False.elim
    | start why => exact h
    | stop code => exact h.elim
    | exit code => exact h.elim
    | _ => trivial
  | connect g code => exact h
  | ended code => exact h.elim
  | _ => trivial

def Deed.Mute : Deed η → Prop
  | .use (.start _) => False
  | .use (.stop _) => False
  | .use (.errors _) => False
  | .connect .. => False
  | _ => True

theorem Deed.Mute.allowed {d : Deed η} (h : d.Mute) (hc : c.stderrLine = []) : d.Allowed lineCare c := by
  cases d with
  | use u =>
    cases u with
    | errors chunk => exact h.elim
    | world l => exact False.elim
    | start why => exact h
    | stop code => exact h.elim
    | exit code => exact fun _ => hc
    | _ => trivial
  | connect g code => exact h
  | ended code => exact ⟨fun _ => hc, False.elim⟩
  | _ => trivial

/-! ## All along -/

/-- Since the moment `m₀` the complete lines of the error output have been logged, and the client
keeps the line that is not complete. -/
structure LogsLines (m₀ m : (whole η read).logged.Moment) (since : List (whole η read).logged.Event)
    (lines : List Bytes) : Prop where
  trace_eq : m.trace = m₀.trace ++ since
  config_eq : m.state.1.config = m₀.state.1.config
  cut : Cut (errorOutput since) lines m.state.1.stderrLine
  logged : errorEntries m.state.2 = errorEntries m₀.state.2 ++ m₀.state.1.lineEntries lines

/-- What heeds the restraint keeps the line, and says nothing about the error output. -/
theorem kept_of_moves {x y : Client η × List Log.Entry} (h : (lineRestraint η).moves x y) :
    y.1.config = x.1.config ∧ y.1.stderrLine = x.1.stderrLine ∧ errorEntries y.2 = errorEntries x.2 := by
  obtain ⟨hspared, es, hes, hnotes⟩ := h
  refine ⟨hspared.config, hspared.line trivial, ?_⟩
  have hnone : errorEntries es = [] := by
    refine List.filter_eq_nil_iff.2 fun e he => ?_
    simpa using hnotes e he trivial
  rw [hes, errorEntries_append, hnone, List.append_nil]

variable {m₀ m : (whole η read).logged.Moment} {since : List (whole η read).logged.Event} {lines : List Bytes}

theorem LogsLines.quiet (h : LogsLines m₀ m since lines) {d : Deed η} (hd : ∀ chunk, d ≠ .use (.errors chunk))
    (start : Client η × List Log.Entry) {p : Routine (Client η × List Log.Entry) (Calls η) d.Answer}
    (hp : p.Heeds (lineRestraint η) m.state) :
    ∃ e, LogsLines m₀ (Moment.proceed (O := (whole η read).logged) m d start p) (since ++ [e]) lines := by
  obtain ⟨hconfig, hline, hlog⟩ :=
    kept_of_moves (moves_proceed (O := (whole η read).logged) d start hp)
  obtain ⟨e, htrace, he⟩ := proceed_event (O := (whole η read).logged) d start hp
  refine ⟨e, ?_, hconfig.trans h.config_eq, ?_, hlog.trans h.logged⟩
  · rw [htrace, h.trace_eq, List.append_assoc]
  · rw [hline, errorOutput_append, outputAfter_of_quiet _ hd he]
    exact h.cut

theorem LogsLines.errors (h : LogsLines m₀ m since lines) (chunk : Bytes) :
    ∃ e lines', LogsLines m₀ (m.enter (.use (.errors chunk))) (since ++ [e]) (lines ++ lines') := by
  have hadv : ((Deed.body read (.use (.errors chunk))).logged).advance m.state
      = (.ended (), (m.state.1.takenIn chunk,
        m.state.2 ++ m.state.1.lineEntries (splitLines (m.state.1.stderrLine ++ chunk)).1)) := by
    have hlogged := advance_logged (Deed.body read (.use (.errors chunk))) m.state.1 m.state.2
    rwa [advance_errors, noted_errors] at hlogged
  rw [Moment.enter, Moment.proceed_of_ended hadv]
  refine ⟨.ended (.use (.errors chunk)) m.state (), (splitLines (m.state.1.stderrLine ++ chunk)).1, ?_, h.config_eq, ?_,
    ?_⟩
  · rw [h.trace_eq, List.append_assoc]
  · rw [errorOutput_append]
    exact h.cut.append (cut_splitLines _)
  · rw [errorEntries_append, errorEntries_lineEntries, lineEntries_congr h.config_eq, lineEntries_append, h.logged,
      List.append_assoc]

def Undisturbed (_ : (whole η read).logged.Moment) (d : Deed η) : Prop := d.Undisturbing

/-- What is known of those who wait and are no stops. -/
theorem bound_of_unstopped {x : Client η × List Log.Entry} (h : (whole η read).logged.Reachable x m)
    (hstops : ∀ f ∈ m.stack, ¬ Deed.Stops f.op) : Bound (lineRestraint η) (fun _ => True) m := by
  have hbound : Bound (lineRestraint η) (fun d : Deed η => ¬ d.Stops) m :=
    bound (fun _ => False.elim)
      (fun d x hd => (heedsLater_body (fun _ h => h) id id fun _ => hd).logged x.2) h
  exact fun f hf _ => hbound f hf (hstops f hf)

/-- While the server is neither started nor stopped the lines are logged as they come. -/
theorem logsLines {x : Client η × List Log.Entry} (h₀ : (whole η read).logged.Reachable x m₀)
    (hempty : m₀.state.1.stderrLine = []) (hstops : ∀ f ∈ m₀.stack, ¬ Deed.Stops f.op)
    (h : Relation.ReflTransGen (StepIf Undisturbed) m₀ m) :
    (∀ f ∈ m.stack, ¬ Deed.Stops f.op) ∧ ∃ since lines, LogsLines m₀ m since lines := by
  induction h with
  | refl =>
    refine ⟨hstops, [], [], (List.append_nil _).symm, rfl, ?_, (List.append_nil _).symm⟩
    rw [hempty]
    exact cut_nil
  | @tail m m' hsteps hstep ih =>
    obtain ⟨hstops, since, lines, hlogs⟩ := ih
    refine ⟨kind_of_step (fun _ _ hmay => Deed.Undisturbing.not_stops hmay) hstops hstep, ?_⟩
    have hreach : (whole η read).logged.Reachable x m := h₀.stepsIf hsteps
    cases hstep with
    | @enter _ d hmay =>
      by_cases herrors : ∃ chunk, d = .use (.errors chunk)
      · obtain ⟨chunk, rfl⟩ := herrors
        obtain ⟨e, lines', hnew⟩ := hlogs.errors chunk
        exact ⟨_, _, hnew⟩
      · have hquiet : ∀ chunk, d ≠ .use (.errors chunk) := fun chunk heq => herrors ⟨chunk, heq⟩
        have hheeds : ActionSpares lineCare Call.NoSpawn (d.body read) m.state.1 :=
          heeds_body (fun _ h => h.noSpawn) (Deed.Undisturbing.allowed hmay hquiet) False.elim
        obtain ⟨e, hnew⟩ := hlogs.quiet hquiet m.state (hheeds.logged m.state.2)
        exact ⟨_, _, hnew⟩
    | reply s f stack trace r =>
      have htaken : ∀ chunk, f.op ≠ .use (.errors chunk) := fun chunk =>
        not_waiting (fun x => ⟨_, _, by rw [advance_logged, advance_errors]⟩) hreach f List.mem_cons_self
      have hrest : LogsLines m₀ ⟨s, stack, trace⟩ since lines :=
        ⟨hlogs.trace_eq, hlogs.config_eq, hlogs.cut, hlogs.logged⟩
      have hbound := bound_of_unstopped hreach hstops
      obtain ⟨e, hnew⟩ := hrest.quiet htaken f.start (hbound f List.mem_cons_self trivial r s False.elim)
      exact ⟨_, _, hnew⟩

/-! ## When the process ends -/

def flushed (c : Client η) : Client η := { c with stderrLine := [] }

def afterFlush (x : Client η × List Log.Entry) : Client η × List Log.Entry :=
  (x.1.flushed, x.2 ++ x.1.lastEntries x.1.stderrLine)

theorem errorEntries_lastEntries (c : Client η) (rest : Bytes) :
    errorEntries (c.lastEntries rest) = c.lastEntries rest := by
  unfold lastEntries
  split <;> rfl

/-- An end of the process logs the line that is not complete, and goes on as if there were none. -/
theorem noted_onExit (code : Option Int) (c : Client η) :
    (onExit code).noted c = c.lastEntries c.stderrLine ++ (onExit code).noted c.flushed := by
  by_cases h : c.stderrLine = []
  · have hsame : c.flushed = c := by
      rw [flushed, ← h]
    rw [hsame, lastEntries, if_pos h, List.nil_append]
  · simp only [onExit, noted_get_bind, noted_set_bind, h, if_false, flushed, if_true, lastEntries]
    rfl

theorem advance_onExit_flushed (code : Option Int) (c : Client η) :
    (onExit code).advance c = (onExit code).advance c.flushed := by
  by_cases h : c.phase = .stopped
  · rw [advance_onExit_stopped code h, advance_onExit_stopped (c := c.flushed) code h]
    rfl
  · rw [advance_onExit code h, advance_onExit (c := c.flushed) code h]
    rfl

theorem noted_aside {α : Type} (p : Aside η α) (c : Client η) : (aside p).noted c = p.noted c := by
  unfold aside
  induction p generalizing c with
  | done a => rfl
  | look next ih => exact ih c c
  | put t next ih => exact ih t
  | note e next ih => exact congrArg (e :: ·) (ih c)
  | call n next _ => rfl

theorem advance_ended (code : Option Int) (x : Client η × List Log.Entry) :
    ((Deed.body read (.ended code)).logged).advance x
      = ((Deed.body read (.ended code)).logged).advance (afterFlush x) := by
  obtain ⟨c, log⟩ := x
  rw [afterFlush, advance_logged, advance_logged, Deed.body, noted_aside, noted_aside, noted_onExit,
    advance_aside_congr (advance_onExit_flushed code c)]
  simp only [List.append_assoc]

def flushedRestraint (η : Type) : Restraint (Client η × List Log.Entry) (Calls η) :=
  { lineRestraint η with
    trust := fun x => x.1.stderrLine = []
    trusted := fun hx hmove => (kept_of_moves hmove).2.1.trans hx }

theorem heeds_flushed {α : Type} {p : Routine (Client η × List Log.Entry) (Calls η) α} {x : Client η × List Log.Entry}
    (h : p.Heeds (lineRestraint η) x) : p.Heeds (flushedRestraint η) x :=
  Heeds.mono (R := lineRestraint η) (Q := flushedRestraint η) (fun _ _ => False.elim) (fun _ _ h => h) (fun _ h => h)
    (fun _ h => h) h

def Muted (_ : (whole η read).logged.Moment) (d : Deed η) : Prop := d.Mute

/-- Once the process has ended nothing more is said about the error output. -/
theorem quiet_after_exit {x : Client η × List Log.Entry} (h : (whole η read).logged.Reachable x m)
    (hstops : ∀ f ∈ m.stack, ¬ Deed.Stops f.op) (code : Option Int) {m' : (whole η read).logged.Moment}
    (hsteps : Relation.ReflTransGen (StepIf Muted) (m.enter (.ended code)) m') :
    m'.state.1.stderrLine = [] ∧
      errorEntries m'.state.2 = errorEntries m.state.2 ++ m.state.1.lastEntries m.state.1.stderrLine := by
  have hmild : ∀ call : Call η, Call.Mild call → Call.NoSpawn call := fun _ h => h.noSpawn
  have hexit : m.enter (.ended code) = Moment.proceed (O := (whole η read).logged)
      { m with state := afterFlush m.state } (.ended code) m.state (Deed.body read (.ended code)).logged :=
    Moment.proceed_congr (advance_ended code m.state)
  have hallowed : (Deed.ended (η := η) code).Allowed lineCare m.state.1.flushed := ⟨fun _ => rfl, False.elim⟩
  have hended : (lineRestraint η).moves (afterFlush m.state) (m.enter (.ended code)).state := by
    have hheeds : ((Deed.body read (.ended code)).logged).Heeds (lineRestraint η) (afterFlush m.state) :=
      (heeds_body hmild hallowed False.elim).logged _
    rw [hexit]
    exact moves_proceed (O := (whole η read).logged) (m := { m with state := afterFlush m.state }) _ _ hheeds
  obtain ⟨-, hline, hlog⟩ := kept_of_moves hended
  have hunstopped : ∀ f ∈ (m.enter (.ended code)).stack, ¬ Deed.Stops f.op := by
    intro f hf
    rcases mem_stack_proceed hf with hold | hnew
    · exact hstops f hold
    · rw [hnew]
      exact id
  have hbound : Bound (flushedRestraint η) (fun _ => True) (m.enter (.ended code)) := fun f hf hkind r y _ =>
    heeds_flushed (bound_of_unstopped (h.enter _) hunstopped f hf hkind r y False.elim)
  have hmoved : (flushedRestraint η).moves (m.enter (.ended code)).state m'.state := by
    refine moves_of_steps (fun m d hmay hm => ?_) hline hbound hsteps
    exact heeds_flushed ((heeds_body hmild (Deed.Mute.allowed hmay hm) False.elim).logged m.state.2)
  obtain ⟨-, hline', hlog'⟩ := kept_of_moves hmoved
  refine ⟨hline'.trans hline, (hlog'.trans hlog).trans ?_⟩
  rw [afterFlush, errorEntries_append, errorEntries_lastEntries]

/-- Wherever the error output is cut into chunks, and whatever else is done to the client, its
lines are logged: from a moment at which no line has been begun and no stop waits, until the
server is started or stopped again. -/
theorem lines_logged {x : Client η × List Log.Entry} (h₀ : (whole η read).logged.Reachable x m₀)
    (hempty : m₀.state.1.stderrLine = []) (hstops : ∀ f ∈ m₀.stack, ¬ Deed.Stops f.op)
    (hsteps : Relation.ReflTransGen (StepIf Undisturbed) m₀ m) :
    ∃ since lines, m.trace = m₀.trace ++ since ∧ Cut (errorOutput since) lines m.state.1.stderrLine ∧
      errorEntries m.state.2 = errorEntries m₀.state.2 ++ m₀.state.1.lineEntries lines ∧
      ∀ code m', Relation.ReflTransGen (StepIf Muted) (m.enter (.ended code)) m' →
        m'.state.1.stderrLine = [] ∧ errorEntries m'.state.2 = errorEntries m₀.state.2
          ++ m₀.state.1.lineEntries lines ++ m₀.state.1.lastEntries m.state.1.stderrLine := by
  obtain ⟨hunstopped, since, lines, hlogs⟩ := logsLines h₀ hempty hstops hsteps
  refine ⟨since, lines, hlogs.trace_eq, hlogs.cut, hlogs.logged, fun code m' hrest => ?_⟩
  obtain ⟨hline, hlast⟩ := quiet_after_exit (h₀.stepsIf hsteps) hunstopped code hrest
  have hname : m.state.1.lastEntries m.state.1.stderrLine = m₀.state.1.lastEntries m.state.1.stderrLine := by
    unfold lastEntries stderrEntry
    rw [hlogs.config_eq]
  exact ⟨hline, by rw [hlast, hlogs.logged, hname]⟩

/-- A poll waits for the server, which ends a line and an empty one, in chunks that come apart
between the two bytes of a line end, and begins another line. -/
def amidPoll : (whole Unit Frame.read).logged.Moment :=
  let config : ServerConfig := { name := text "demo", command := text "demo" }
  let m : (whole Unit Frame.read).logged.Moment := ⟨(made config {} { running := true } {} {} {} {}, []), [], []⟩
  ((m.enter (.use (.poll 50))).enter (.use (.errors (text "a\r")))).enter (.use (.errors (text "\n\r\nb")))

theorem lines_logged_amid_poll : amidPoll.stack.length = 1 ∧ amidPoll.state.1.stderrLine = text "b" ∧
    errorEntries amidPoll.state.2 = [Log.debug "stderr" (text "demo: a")] ∧
    errorEntries (amidPoll.enter (.ended (some 3))).state.2
      = [Log.debug "stderr" (text "demo: a"), Log.debug "stderr" (text "demo: b")] ∧
    ∃ since lines, amidPoll.trace = [] ++ since ∧ Cut (errorOutput since) lines amidPoll.state.1.stderrLine ∧
      errorEntries amidPoll.state.2 = errorEntries [] ++ amidPoll.state.1.lineEntries lines ∧
      ∀ code m', Relation.ReflTransGen (StepIf Muted) (amidPoll.enter (.ended code)) m' →
        m'.state.1.stderrLine = [] ∧ errorEntries m'.state.2 = errorEntries []
          ++ amidPoll.state.1.lineEntries lines ++ amidPoll.state.1.lastEntries amidPoll.state.1.stderrLine := by
  let fresh : Client Unit := made { name := text "demo", command := text "demo" } {} { running := true } {} {} {} {}
  have hsteps : Relation.ReflTransGen (StepIf Undisturbed)
      (⟨(fresh, []), [], []⟩ : (whole Unit Frame.read).logged.Moment) amidPoll := by
    refine ((Relation.ReflTransGen.single (.enter ?_)).tail (.enter ?_)).tail (.enter ?_)
    all_goals exact trivial
  exact ⟨rfl, rfl, rfl, rfl, lines_logged .init rfl (fun f hf => absurd hf List.not_mem_nil) hsteps⟩

end LanguageClient.Client

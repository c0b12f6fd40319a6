import LanguageClient.Catalog.Search
import LanguageClient.Catalog.Discovery
import Mathlib.Data.List.Nodup
/-
  LanguageClient.Proofs.Catalog.Discovery — discovery agrees with choosing language by language.

  Whoever wants the server for one extension goes over the servers in order and takes the
  first that serves it, is installed and passes its check. Discovery goes over them once for
  all extensions, and does not even look for a server whose languages are all covered. That
  hides no server that is needed: a language is covered only once a server for it has passed
  (`Scan.selects`, `discovery_faithful`).

  At a `Site` the files stand still and a check is a function of the server and its command.
-/

namespace LanguageClient.Catalog

/-- A project in which servers are looked for, with the way they are checked. -/
structure Site where
  around : Surroundings
  root : Bytes
  verify : KnownServer → Bytes → Bool

abbrev Check := KnownServer × Bytes

def Check.config (c : Check) : ServerConfig :=
  { name := c.1.name, command := c.2, args := c.1.args, languages := c.1.languages }

namespace Site

def servers (t : Site) : List KnownServer := orderedFor t.around.files t.root

def passes (t : Site) (c : Check) : Bool := t.verify c.1 c.2

def usable? (t : Site) (server : KnownServer) : Option Bytes :=
  (findCommand t.around t.root server.command).filter (t.verify server)

/-- The server for one extension: the first that lists it and can be used. -/
def selected? (t : Site) (extension : Bytes) : Option Check :=
  t.servers.findSome? fun server =>
    if server.languages.contains extension then (t.usable? server).map fun command => (server, command) else none

def answer (t : Site) : (q : Inquiry) → StateM (List Check) q.Reply
  | .find command => fun checks => (findCommand t.around t.root command, checks)
  | .check server command => fun checks => (t.verify server command, checks ++ [(server, command)])

def seat : Seat Unit (List Check) := ⟨fun _ => (), fun _ checks => checks, fun _ checks => checks⟩

def discovery (t : Site) : List ServerConfig × List Check := (discover t.servers).run seat t.answer []

structure Faithful (t : Site) (found : List ServerConfig) (checks : List Check) : Prop where
  /-- Each extension, written without its dot, gets the server that is selected for it alone. -/
  selects : ∀ extension, extension.head? ≠ some Byte.dot →
    serverFor? found extension = (t.selected? extension).map Check.config
  /-- Found are the servers that passed. -/
  found_eq : found = (checks.filter t.passes).map Check.config
  found_ordered : ((checks.filter t.passes).map Prod.fst).Sublist t.servers
  /-- Whoever is found serves a language that nobody found before serves. -/
  found_useful : ∀ before c after, found = before ++ c :: after → ∃ l ∈ c.languages, ∀ b ∈ before, l ∉ b.languages
  checked_once : (checks.map Prod.fst).Nodup
  checked_ordered : (checks.map Prod.fst).Sublist t.servers
  /-- Checked are servers whose command was found and who serve a language that was not covered yet. -/
  checked_useful : ∀ before c after, checks = before ++ c :: after →
    findCommand t.around t.root c.1.command = some c.2 ∧
      ∃ l ∈ c.1.languages, ∀ b ∈ before, t.passes b = true → l ∉ b.1.languages

end Site

/-! ## Going over the servers -/

variable {t : Site} {covered : List Bytes} {servers : List KnownServer} {checks : List Check}
  {found : List ServerConfig}

theorem brings_iff {server : KnownServer} : brings covered server = true ↔ ∃ l ∈ server.languages, l ∉ covered := by
  simp [brings]

theorem serves_iff {server : KnownServer} {extension : Bytes} :
    server.serves extension = true ↔ extension ∈ server.languages := by
  simp [KnownServer.serves]

@[simp] theorem config_serves (c : Check) (extension : Bytes) :
    c.config.serves extension = c.1.serves extension := rfl

/-- How servers are gone over when some languages are covered: the checks that are made, and
who is found. -/
inductive Scan (t : Site) : List Bytes → List KnownServer → List Check → List ServerConfig → Prop where
  | nil (covered : List Bytes) : Scan t covered [] [] []
  | passedOver {covered server rest checks found} : brings covered server = false → Scan t covered rest checks found →
      Scan t covered (server :: rest) checks found
  | missing {covered server rest checks found} : findCommand t.around t.root server.command = none →
      Scan t covered rest checks found → Scan t covered (server :: rest) checks found
  | refused {covered server rest checks found command} : brings covered server = true →
      findCommand t.around t.root server.command = some command → t.verify server command = false →
      Scan t covered rest checks found → Scan t covered (server :: rest) ((server, command) :: checks) found
  | taken {covered server rest checks found command} : brings covered server = true →
      findCommand t.around t.root server.command = some command → t.verify server command = true →
      Scan t (covered ++ server.languages) rest checks found →
      Scan t covered (server :: rest) ((server, command) :: checks) (Check.config (server, command) :: found)

/-- A server is tried by looking for its command and then checking it. -/
theorem run_attempt (server : KnownServer) (checks : List Check) :
    (attempt server : Routine Unit Inquiries _).run Site.seat t.answer checks =
      match findCommand t.around t.root server.command with
      | none => (none, checks)
      | some command =>
        (if t.verify server command then some command else none, checks ++ [(server, command)]) := by
  cases hfind : findCommand t.around t.root server.command with
  | none => simp [attempt, Routine.ask, bind, Routine.bind, Routine.run, Site.answer, hfind, pure]
  | some command =>
    cases hverify : t.verify server command <;>
      simp [attempt, Routine.ask, note, Routine.log, bind, Routine.bind, Routine.run, Site.answer, hfind, hverify, pure,
        Site.seat]

/-- Discovery goes over the servers as `Scan` says, after whatever was checked before. -/
theorem run_discoverFrom (t : Site) (covered : List Bytes) (servers : List KnownServer) (before : List Check) :
    ∃ checks, ((discoverFrom covered servers).run Site.seat t.answer before).2 = before ++ checks ∧
      Scan t covered servers checks ((discoverFrom covered servers).run Site.seat t.answer before).1 := by
  induction servers generalizing covered before with
  | nil => exact ⟨[], (List.append_nil before).symm, .nil covered⟩
  | cons server rest ih =>
    rw [discoverFrom]
    cases hbrings : brings covered server with
    | false =>
      obtain ⟨checks, hchecks, hscan⟩ := ih covered before
      exact ⟨checks, hchecks, .passedOver hbrings hscan⟩
    | true =>
      simp only [if_true, bind, Routine.run_bind, run_attempt]
      cases hfind : findCommand t.around t.root server.command with
      | none =>
        obtain ⟨checks, hchecks, hscan⟩ := ih covered before
        exact ⟨checks, hchecks, .missing hfind hscan⟩
      | some command =>
        cases hverify : t.verify server command with
        | false =>
          obtain ⟨checks, hchecks, hscan⟩ := ih covered (before ++ [(server, command)])
          simp only [hverify, Bool.false_eq_true, if_false]
          exact ⟨_, hchecks.trans (List.append_assoc ..), .refused hbrings hfind hverify hscan⟩
        | true =>
          obtain ⟨checks, hchecks, hscan⟩ := ih (covered ++ server.languages) (before ++ [(server, command)])
          simp only [hverify, if_true, Routine.run_bind]
          exact ⟨_, hchecks.trans (List.append_assoc ..), .taken hbrings hfind hverify hscan⟩

namespace Scan

theorem found_eq (h : Scan t covered servers checks found) :
    found = (checks.filter t.passes).map Check.config := by
  induction h with
  | nil => rfl
  | passedOver _ _ ih => exact ih
  | missing _ _ ih => exact ih
  | refused _ _ hverify _ ih => simpa [Site.passes, hverify] using ih
  | taken _ _ hverify _ ih => simpa [Site.passes, hverify] using ih

theorem checked_ordered (h : Scan t covered servers checks found) : (checks.map Prod.fst).Sublist servers := by
  induction h with
  | nil => exact .slnil
  | passedOver _ _ ih => exact ih.cons _
  | missing _ _ ih => exact ih.cons _
  | refused _ _ _ _ ih => exact ih.cons_cons _
  | taken _ _ _ _ ih => exact ih.cons_cons _

/-- Covered are the languages that were at first, and those of the servers that passed since. -/
theorem checked_useful (h : Scan t covered servers checks found) : ∀ before c after, checks = before ++ c :: after →
    findCommand t.around t.root c.1.command = some c.2 ∧
      ∃ l ∈ c.1.languages, l ∉ covered ∧ ∀ b ∈ before, t.passes b = true → l ∉ b.1.languages := by
  induction h with
  | nil => simp
  | passedOver _ _ ih => exact ih
  | missing _ _ ih => exact ih
  | @refused covered server rest checks found command hbrings hfind hverify _ ih =>
    rintro (_ | ⟨b, before⟩) c after hsplit
    · obtain ⟨rfl, rfl⟩ := List.cons.inj hsplit
      exact ⟨hfind, by simpa using brings_iff.1 hbrings⟩
    · obtain ⟨rfl, hrest⟩ := List.cons.inj hsplit
      obtain ⟨hcommand, l, hl, hnew, hbefore⟩ := ih before c after hrest
      refine ⟨hcommand, l, hl, hnew, List.forall_mem_cons.2 ⟨fun hpasses => ?_, hbefore⟩⟩
      exact absurd (hpasses.symm.trans hverify) (by simp)
  | @taken covered server rest checks found command hbrings hfind _ _ ih =>
    rintro (_ | ⟨b, before⟩) c after hsplit
    · obtain ⟨rfl, rfl⟩ := List.cons.inj hsplit
      exact ⟨hfind, by simpa using brings_iff.1 hbrings⟩
    · obtain ⟨rfl, hrest⟩ := List.cons.inj hsplit
      obtain ⟨hcommand, l, hl, hnew, hbefore⟩ := ih before c after hrest
      rw [List.mem_append, not_or] at hnew
      exact ⟨hcommand, l, hl, hnew.1, List.forall_mem_cons.2 ⟨fun _ => hnew.2, hbefore⟩⟩

/-- Those who are found were checked, with the same ones before them that count. -/
theorem found_useful (h : Scan t covered servers checks found) : ∀ before c after, found = before ++ c :: after →
    ∃ l ∈ c.languages, ∀ b ∈ before, l ∉ b.languages := by
  intro before c after hsplit
  obtain ⟨passed, _, hpassed, rfl, hrest⟩ := List.map_eq_append_iff.1 (h.found_eq.symm.trans hsplit)
  obtain ⟨c, _, rfl, rfl, rfl⟩ := List.map_eq_cons_iff.1 hrest
  obtain ⟨earlier, later, rfl, rfl, hlater⟩ := List.filter_eq_append_iff.1 hpassed
  obtain ⟨between, _, rfl, hbetween, -, -⟩ := List.filter_eq_cons_iff.1 hlater
  obtain ⟨-, l, hl, -, hnew⟩ := h.checked_useful (earlier ++ between) c _ (List.append_assoc ..).symm
  refine ⟨l, hl, fun b hb => ?_⟩
  obtain ⟨d, hd, rfl⟩ := List.mem_map.1 hb
  obtain ⟨hd, hpasses⟩ := List.mem_filter.1 hd
  exact hnew d (List.mem_append_left _ hd) hpasses

/-- An extension that is not covered gets whom it would get if it alone counted. A server that
is passed over serves only what is covered, so it would not be taken for this extension. -/
theorem selects (h : Scan t covered servers checks found) {extension : Bytes} (hnew : extension ∉ covered) :
    found.find? (·.serves extension) = (servers.findSome? fun server =>
      if server.languages.contains extension then (t.usable? server).map fun command => (server, command)
      else none).map Check.config := by
  induction h with
  | nil => rfl
  | @passedOver covered server rest checks found hbrings _ ih =>
    have hother : extension ∉ server.languages := fun hl =>
      absurd (brings_iff.2 ⟨extension, hl, hnew⟩) (by simp [hbrings])
    simpa [hother] using ih hnew
  | missing hfind _ ih => simpa [Site.usable?, hfind] using ih hnew
  | refused _ hfind hverify _ ih => simpa [Site.usable?, hfind, hverify] using ih hnew
  | @taken covered server rest checks found command _ hfind hverify _ ih =>
    by_cases hl : extension ∈ server.languages
    · simp [Site.usable?, hfind, hverify, hl, serves_iff.2 hl, Option.filter_some]
    · have hserves : server.serves extension = false := Bool.eq_false_iff.2 (mt serves_iff.1 hl)
      simpa [hl, hserves] using ih (by simp [hnew, hl])

end Scan

/-! ## The whole discovery -/

/-- No server is in the table twice. -/
theorem known_nodup : known.Nodup := .of_map KnownServer.name (by decide +kernel)

theorem ordered_perm (denoProject : Bool) : (ordered denoProject).Perm known := by
  cases denoProject with
  | false => exact .refl known
  | true => exact List.filter_append_perm (·.name == denoName) known

theorem dropDot_of_head {extension : Bytes} (h : extension.head? ≠ some Byte.dot) :
    Path.dropDot extension = extension := by
  cases extension with
  | nil => rfl
  | cons c rest =>
    have hc : c ≠ Byte.dot := fun hc => h (congrArg some hc)
    simp [Path.dropDot, hc]

/-- For every extension a discovery finds the server that the extension alone would get, and
it checks no server that it does not need. -/
theorem discovery_faithful (t : Site) : t.Faithful t.discovery.1 t.discovery.2 := by
  obtain ⟨checks, hchecks, hscan⟩ := run_discoverFrom t [] t.servers []
  rw [List.nil_append] at hchecks
  have hscan : Scan t [] t.servers t.discovery.2 t.discovery.1 := hchecks ▸ hscan
  refine
    { selects := fun extension hdot => ?_
      found_eq := hscan.found_eq
      found_ordered := (List.filter_sublist.map _).trans hscan.checked_ordered
      found_useful := hscan.found_useful
      checked_once := hscan.checked_ordered.nodup ((ordered_perm _).nodup_iff.2 known_nodup)
      checked_ordered := hscan.checked_ordered
      checked_useful := fun before c after hsplit => ?_ }
  · rw [serverFor?, dropDot_of_head hdot]
    exact hscan.selects List.not_mem_nil
  · obtain ⟨hcommand, l, hl, -, hbefore⟩ := hscan.checked_useful before c after hsplit
    exact ⟨hcommand, l, hl, hbefore⟩

end LanguageClient.Catalog

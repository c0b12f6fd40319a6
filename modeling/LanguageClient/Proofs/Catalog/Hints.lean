import LanguageClient.Proofs.Catalog.Discovery
import LanguageClient.Proofs.Executable
import Mathlib.Data.List.Perm.Basic
/-
  LanguageClient.Proofs.Catalog.Hints — each missing server has one line, in order.

  The table is gone over once for each extension. Whoever was looked at for an earlier
  extension is left out from then on, installed or not, so a server is looked at for the
  first extension that it serves and for no other. The names of those that were looked at
  stand for the servers, since no two servers share a name.

  - `mem_lookedAt`: looked at are those that serve one of the extensions.
  - `lookedAt_ordered`: first in the order of the extensions, then of the table.
  - `lookedAt_again`: an extension that was there before, with its dot or without, adds nobody.
  - `missing_hints`: the lines are those of the missing servers among them.
-/

namespace LanguageClient.Catalog

open Host (Files)

variable {s : Surroundings} {root extension : Bytes} {seen extensions : List Bytes} {server : KnownServer}

theorem known_names : (known.map (·.name)).Nodup := by decide +kernel

theorem known_hints : ∀ server ∈ known, server.installHint ≠ [] := by decide +kernel

theorem known_lines : (known.map hintLine).Nodup := by decide +kernel

/-! ## Who is looked at -/

def lookedAt (seen : List Bytes) : List Bytes → List KnownServer
  | [] => []
  | extension :: rest => unseen seen extension ++ lookedAt (seen ++ (unseen seen extension).map (·.name)) rest

def Asked (extensions : List Bytes) (server : KnownServer) : Prop :=
  ∃ e ∈ extensions, server.serves (Path.dropDot e) = true

@[simp] theorem asked_cons : Asked (extension :: extensions) server ↔
    server.serves (Path.dropDot extension) = true ∨ Asked extensions server := by
  simp [Asked]

theorem Asked.perm {other : List Bytes} (h : extensions.Perm other) : Asked extensions server ↔ Asked other server := by
  simp only [Asked, h.mem_iff]

theorem hintsFrom_eq (installed : KnownServer → Bool) (seen extensions : List Bytes) :
    hintsFrom installed seen extensions =
      ((lookedAt seen extensions).filter (fun server => !installed server && server.installHint != [])).map hintLine := by
  induction extensions generalizing seen with
  | nil => rfl
  | cons e rest ih => simp only [hintsFrom, lookedAt, ih, List.filter_append, List.map_append]

theorem mem_unseen : server ∈ unseen seen extension ↔
    server ∈ known ∧ server.name ∉ seen ∧ server.serves (Path.dropDot extension) = true := by
  simp [unseen]

/-- The names of known servers stand for them. -/
theorem name_mem_map {servers : List KnownServer} (hservers : servers ⊆ known) (hknown : server ∈ known) :
    server.name ∈ servers.map (·.name) ↔ server ∈ servers := by
  refine ⟨fun hname => ?_, List.mem_map_of_mem⟩
  obtain ⟨other, hother, heq⟩ := List.mem_map.1 hname
  exact List.inj_on_of_nodup_map known_names (hservers hother) hknown heq ▸ hother

theorem unseen_subset : unseen seen extension ⊆ known := fun _ h => (mem_unseen.1 h).1

theorem mem_lookedAt : server ∈ lookedAt seen extensions ↔
    server ∈ known ∧ server.name ∉ seen ∧ Asked extensions server := by
  induction extensions generalizing seen with
  | nil => simp [lookedAt, Asked]
  | cons e rest ih =>
    rw [lookedAt, List.mem_append, ih, List.mem_append, asked_cons]
    by_cases hknown : server ∈ known
    · rw [name_mem_map unseen_subset hknown, mem_unseen]
      tauto
    · simp [mem_unseen, hknown]

theorem lookedAt_subset : lookedAt seen extensions ⊆ known := fun _ h => (mem_lookedAt.1 h).1

/-! ## The order -/

def firstPlace (extensions : List Bytes) (server : KnownServer) : Nat :=
  extensions.findIdx fun e => server.serves (Path.dropDot e)

/-- The order of the lines: that of the extensions that the servers serve first, then that of the table. -/
def Before (extensions : List Bytes) (a b : KnownServer) : Prop :=
  firstPlace extensions a < firstPlace extensions b ∨
    firstPlace extensions a = firstPlace extensions b ∧ [a, b].Sublist known

theorem firstPlace_of_serves (h : server.serves (Path.dropDot extension) = true) :
    firstPlace (extension :: extensions) server = 0 := by
  simp [firstPlace, List.findIdx_cons, h]

theorem firstPlace_of_not_serves (h : ¬ server.serves (Path.dropDot extension) = true) :
    firstPlace (extension :: extensions) server = firstPlace extensions server + 1 := by
  simp [firstPlace, List.findIdx_cons, h]

theorem Before.ne {a b : KnownServer} (h : Before extensions a b) : a ≠ b := by
  rintro rfl
  rcases h with hlt | ⟨-, htwice⟩
  · exact Nat.lt_irrefl _ hlt
  · simpa using known_nodup.sublist htwice

/-- Those who are looked at for the first extension come in the order of the table. The others do not
serve it, so that for each of them the first extension that it serves is one place further on. -/
theorem lookedAt_ordered (seen extensions : List Bytes) : (lookedAt seen extensions).Pairwise (Before extensions) := by
  induction extensions generalizing seen with
  | nil => exact .nil
  | cons e rest ih =>
    have hlater : ∀ b ∈ lookedAt (seen ++ (unseen seen e).map (·.name)) rest,
        firstPlace (e :: rest) b = firstPlace rest b + 1 := fun b hb => by
      obtain ⟨hknown, hname, -⟩ := mem_lookedAt.1 hb
      rw [List.mem_append, not_or, name_mem_map unseen_subset hknown, mem_unseen] at hname
      exact firstPlace_of_not_serves fun hserves => hname.2 ⟨hknown, hname.1, hserves⟩
    have hnow : ∀ a ∈ unseen seen e, firstPlace (e :: rest) a = 0 :=
      fun a ha => firstPlace_of_serves (mem_unseen.1 ha).2.2
    rw [lookedAt, List.pairwise_append]
    refine ⟨?table, ?later, ?across⟩
    case table =>
      refine List.pairwise_iff_forall_sublist.2 fun {a b} hab => Or.inr ⟨?_, hab.trans List.filter_sublist⟩
      rw [hnow a (hab.subset (by simp)), hnow b (hab.subset (by simp))]
    case later =>
      refine (ih _).imp_of_mem fun {a b} ha hb hab => ?_
      rw [Before, hlater a ha, hlater b hb]
      exact hab.imp Nat.succ_lt_succ (And.imp_left (congrArg Nat.succ))
    case across =>
      intro a ha b hb
      exact Or.inl (by rw [hnow a ha, hlater b hb]; exact Nat.succ_pos _)

theorem lookedAt_nodup (seen extensions : List Bytes) : (lookedAt seen extensions).Nodup :=
  (lookedAt_ordered seen extensions).imp Before.ne

/-! ## Extensions that come again, or in another order -/

theorem lookedAt_append (seen before after : List Bytes) :
    lookedAt seen (before ++ after) =
      lookedAt seen before ++ lookedAt (seen ++ (lookedAt seen before).map (·.name)) after := by
  induction before generalizing seen with
  | nil => simp [lookedAt]
  | cons e rest ih => simp only [List.cons_append, lookedAt, ih, List.append_assoc, List.map_append]

theorem lookedAt_again {before : List Bytes} {again : Bytes} (after : List Bytes)
    (h : ∃ e ∈ before, Path.dropDot e = Path.dropDot again) :
    lookedAt seen (before ++ again :: after) = lookedAt seen (before ++ after) := by
  have hnobody : unseen (seen ++ (lookedAt seen before).map (·.name)) again = [] := by
    refine List.eq_nil_iff_forall_not_mem.2 fun server hserver => ?_
    obtain ⟨hknown, hname, hserves⟩ := mem_unseen.1 hserver
    rw [List.mem_append, not_or, name_mem_map lookedAt_subset hknown, mem_lookedAt] at hname
    obtain ⟨e, he, hsame⟩ := h
    exact hname.2 ⟨hknown, hname.1, e, he, hsame ▸ hserves⟩
  rw [lookedAt_append, lookedAt, hnobody, List.nil_append, List.map_nil, List.append_nil, lookedAt_append]

theorem lookedAt_perm {other : List Bytes} (h : extensions.Perm other) :
    (lookedAt seen extensions).Perm (lookedAt seen other) := by
  refine (List.perm_ext_iff_of_nodup (lookedAt_nodup ..) (lookedAt_nodup ..)).2 fun server => ?_
  rw [mem_lookedAt, mem_lookedAt, Asked.perm h]

/-! ## The hints -/

/-- A known server that is asked for, whose command is not found and of which there is something to say. -/
structure Missing (s : Surroundings) (root : Bytes) (extensions : List Bytes) (server : KnownServer) : Prop where
  isKnown : server ∈ known
  asked : Asked extensions server
  notFound : findCommand s root server.command = none
  hinted : server.installHint ≠ []

def missing (s : Surroundings) (root : Bytes) (extensions : List Bytes) : List KnownServer :=
  (lookedAt [] extensions).filter fun server => !isInstalled s root server && server.installHint != []

theorem missingHints_eq (s : Surroundings) (root : Bytes) (extensions : List Bytes) :
    missingHints s root extensions = (missing s root extensions).map hintLine :=
  hintsFrom_eq (isInstalled s root) [] extensions

theorem mem_missing : server ∈ missing s root extensions ↔ Missing s root extensions server := by
  simp only [missing, List.mem_filter, mem_lookedAt, Bool.and_eq_true, Bool.not_eq_true', isInstalled,
    Option.isSome_eq_false_iff, Option.isNone_iff_eq_none, bne_iff_ne]
  exact ⟨fun ⟨⟨hknown, _, hasked⟩, hfound, hhint⟩ => ⟨hknown, hasked, hfound, hhint⟩,
    fun h => ⟨⟨h.isKnown, List.not_mem_nil, h.asked⟩, h.notFound, h.hinted⟩⟩

theorem hintLine_mem_missingHints (h : Missing s root extensions server) :
    hintLine server ∈ missingHints s root extensions :=
  missingHints_eq s root extensions ▸ List.mem_map_of_mem (mem_missing.2 h)

theorem missingHints_nodup (s : Surroundings) (root : Bytes) (extensions : List Bytes) :
    (missingHints s root extensions).Nodup := by
  rw [missingHints_eq]
  refine ((lookedAt_nodup [] extensions).filter _).map_on fun a ha b hb hline => ?_
  exact List.inj_on_of_nodup_map known_lines (mem_missing.1 ha).isKnown (mem_missing.1 hb).isKnown hline

/-- There is one line for each missing server and no other line, in the order of the first extensions that
the servers serve and then of the table. An extension that comes again changes nothing, and another order
of the extensions changes only that of the lines. -/
theorem missing_hints (s : Surroundings) (root : Bytes) (extensions : List Bytes) :
    (∃ servers : List KnownServer, missingHints s root extensions = servers.map hintLine ∧
      (∀ server, server ∈ servers ↔ Missing s root extensions server) ∧ servers.Pairwise (Before extensions)) ∧
    (missingHints s root extensions).Nodup ∧
    (∀ before again after, extensions = before ++ again :: after →
      (∃ e ∈ before, Path.dropDot e = Path.dropDot again) →
      missingHints s root extensions = missingHints s root (before ++ after)) ∧
    ∀ other, extensions.Perm other → (missingHints s root extensions).Perm (missingHints s root other) := by
  refine ⟨⟨missing s root extensions, missingHints_eq s root extensions, fun server => mem_missing, ?ordered⟩,
    missingHints_nodup s root extensions, ?again, fun other hperm => ?perm⟩
  case ordered => exact (lookedAt_ordered [] extensions).filter _
  case again =>
    rintro before again after rfl hbefore
    rw [missingHints_eq, missingHints_eq, missing, lookedAt_again after hbefore, missing]
  case perm =>
    rw [missingHints_eq, missingHints_eq]
    exact ((lookedAt_perm hperm).filter _).map _

def withGopls : Surroundings where
  files := { tree := ⟨[([text "bin"], .directory true), ([text "bin", text "gopls"], .file ⟨true, true, true⟩ (.bytes []))]⟩ }
  environment := [text "PATH=/bin"]

theorem findCommand_withGopls : ∀ server ∈ known,
    findCommand withGopls (text "/") server.command =
      if server.name = text "gopls" then some (text "/bin/gopls") else none := by
  have hlinks : withGopls.files.tree.Linkless := by decide +kernel
  unfold findCommand Executable.find Executable.isRunnable Files.has Files.isFile Files.isExecutable Files.node? Files.find
    Files.place
  simp only [Host.Tree.walk_eq_foldlM hlinks]
  decide +kernel

/-- Nobody is told of the program that is there. The two servers for the first extension come before one that
is earlier in the table. -/
theorem missing_hints_withGopls :
    (missingHints withGopls (text "/") [text ".yaml", text "rs", text "go", text "yaml"] =
      [text "yaml-language-server: npm install -g yaml-language-server",
        text "docker-compose-language: npm install -g yaml-language-server",
        text "rust-analyzer: rustup component add rust-analyzer"]) ∧
    missingHints withGopls (text "/") [text ".yaml", text "rs", text "go", text "yaml"] =
      missingHints withGopls (text "/") [text ".yaml", text "rs", text "go"] ∧
    (missingHints withGopls (text "/") [text ".yaml", text "rs", text "go", text "yaml"]).Perm
      (missingHints withGopls (text "/") [text "yaml", text "go", text "rs", text ".yaml"]) := by
  obtain ⟨-, -, hagain, hperm⟩ := missing_hints withGopls (text "/") [text ".yaml", text "rs", text "go", text "yaml"]
  refine ⟨?_, ?_, ?_⟩
  · rw [missingHints_eq, missing, List.filter_congr fun server hserver => by
      rw [isInstalled, findCommand_withGopls server (lookedAt_subset hserver)]]
    decide +kernel
  · exact hagain [text ".yaml", text "rs", text "go"] (text "yaml") [] rfl ⟨text ".yaml", by simp, by decide⟩
  · exact hperm _ (by decide)

end LanguageClient.Catalog

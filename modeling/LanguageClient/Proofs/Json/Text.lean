import LanguageClient.Proofs.Json.Escape
import LanguageClient.Proofs.Table
/-
  LanguageClient.Proofs.Json.Text — values are read as they are written.

  A reader goes on byte by byte, and a word is complete only with the byte behind it. So where a
  value may stand, its text brings a reader to where the value is complete or will be as soon as
  the word has ended (`Reader.Stands`, `IsRead`). For arrays and objects this goes by induction
  on the items, with what has been read before them.

  - `Proper.read?_written`: a proper value is read as it was written.
  - `Proper.of_read?`: whatever is read is proper.
-/

namespace LanguageClient.Json

variable {s r read : Bytes} {c : UInt8} {stage : Stage}

/-! ## Reading on -/

namespace Reader

def run (r : Reader) (s : Bytes) : Option Reader := s.foldlM Reader.take r

theorem run_append (r : Reader) (s t : Bytes) : r.run (s ++ t) = (r.run s).bind (·.run t) := List.foldlM_append

theorem run_cons (r : Reader) (c : UInt8) (s : Bytes) : r.run (c :: s) = (r.take c).bind (·.run s) := rfl

theorem take_silent {lexer lexer' : Lexer} (h : lexer.take c = some ([], lexer')) (stage : Stage) :
    take ⟨lexer, stage⟩ c = some ⟨lexer', stage⟩ := by
  simp [take, h]

theorem take_token {lexer lexer' : Lexer} {t : Token} (h : lexer.take c = some ([t], lexer')) (stage : Stage) :
    take ⟨lexer, stage⟩ c = (stage.take t).map (Reader.mk lexer') := by
  simp only [take, h, Option.bind_eq_bind, Option.bind_some, List.foldlM_cons, List.foldlM_nil]
  cases stage.take t <;> rfl

/-! ### Texts -/

theorem run_plain (hquote : c ≠ 34) (hslash : c ≠ 92) (hlow : 32 ≤ c) (read s : Bytes) (stage : Stage) :
    run ⟨.quote read false, stage⟩ (c :: s) = run ⟨.quote (c :: read) false, stage⟩ s := by
  have hlexer : Lexer.take (.quote read false) c = some ([], .quote (c :: read) false) := by
    rw [Lexer.take, if_neg hquote, if_neg (UInt8.not_lt.2 hlow), beq_eq_false_iff_ne.2 hslash]
  rw [run_cons, take_silent hlexer, Option.bind_some]

theorem run_letter (x : UInt8) (read s : Bytes) (stage : Stage) :
    run ⟨.quote read false, stage⟩ (92 :: x :: s) = run ⟨.quote (x :: 92 :: read) false, stage⟩ s := rfl

end Reader

theorem IsEscape.run {e : Bytes} (h : IsEscape c e) (read s : Bytes) (stage : Stage) :
    Reader.run ⟨.quote read false, stage⟩ (e ++ s) = Reader.run ⟨.quote (e.reverse ++ read) false, stage⟩ s := by
  cases h with
  | letter _ _ _ => exact Reader.run_letter _ read s stage
  | unit hc =>
    obtain ⟨hdiv, hmod⟩ := control_digits hc
    have hdigit : ∀ {d : UInt8}, 48 ≤ d ∧ d < 0x80 ∧ d ≠ 92 → ∀ read s,
        Reader.run ⟨.quote read false, stage⟩ (d :: s) = Reader.run ⟨.quote (d :: read) false, stage⟩ s := by
      rintro d ⟨hlow, -, hslash⟩ read s
      have hquote : d ≠ 34 := by
        rintro rfl
        exact absurd hlow (by decide)
      exact Reader.run_plain hquote hslash (UInt8.le_trans (by decide) hlow) read s stage
    simp only [List.cons_append, List.nil_append, Reader.run_letter]
    rw [hdigit (by decide), hdigit (by decide), hdigit (hexDigit_bounds hdiv), hdigit (hexDigit_bounds hmod)]
    rfl
  | plain hquote hslash hlow => exact Reader.run_plain hquote hslash hlow read s stage

theorem run_escapes (s read : Bytes) (stage : Stage) : Reader.run ⟨.quote read false, stage⟩ (s.flatMap escape) =
    some ⟨.quote ((s.flatMap escape).reverse ++ read) false, stage⟩ := by
  induction s generalizing read with
  | nil => rfl
  | cons c s ih => rw [List.flatMap_cons, (isEscape c).run, ih, List.reverse_append, List.append_assoc]

/-- A text between quotes is read as one token. -/
theorem run_quoted (h : Utf8.isText s = true) (stage : Stage) :
    Reader.run ⟨.between, stage⟩ (quoted s) = (stage.take (.plain (.str s))).map (Reader.mk .between) := by
  have hlexer : Lexer.take (.quote (s.flatMap escape).reverse false) 34 = some ([.plain (.str s)], .between) := by
    rw [Lexer.take, if_pos rfl, List.reverse_reverse, if_pos (isText_escapes h), unescape?_escapes]
    rfl
  have hopen : Lexer.take .between 34 = some ([], .quote [] false) := rfl
  rw [quoted, Utf8.mend_eq_self_iff.2 h, List.cons_append, Reader.run_cons, Reader.take_silent hopen, Option.bind_some,
    Reader.run_append, run_escapes, Option.bind_some, List.append_nil, Reader.run_cons, Reader.take_token hlexer]
  cases stage.take (.plain (.str s)) <;> rfl

/-! ## Words -/

/-- No byte of a word ends it. -/
def IsWord (s : Bytes) : Prop := s ≠ [] ∧ ∀ c ∈ s, Lexer.endsWord c = false

theorem isWord_of_all (hne : s ≠ []) (h : s.all (fun c => !Lexer.endsWord c) = true) : IsWord s :=
  ⟨hne, by simpa using h⟩

theorem endsWord_of_isNumeralByte (h : isNumeralByte c = true) : Lexer.endsWord c = false := by
  have hne : ∀ d : UInt8, isNumeralByte d = false → c ≠ d := by
    rintro d hd rfl
    exact absurd (h.symm.trans hd) (by decide)
  have hmark : Lexer.mark? c = none := by
    refine List.lookup_eq_none_iff.2 fun p hp => ?_
    simp only [List.mem_cons, List.not_mem_nil, or_false] at hp
    have hother : isNumeralByte p.1 = false := by rcases hp with rfl | rfl | rfl | rfl | rfl | rfl <;> rfl
    simpa using hne p.1 hother
  have hblank : isBlank c = false := by
    rw [isBlank, beq_eq_false_iff_ne.2 (hne 32 (by decide)), beq_eq_false_iff_ne.2 (hne 9 (by decide)),
      beq_eq_false_iff_ne.2 (hne 10 (by decide)), beq_eq_false_iff_ne.2 (hne 13 (by decide))]
    rfl
  rw [Lexer.endsWord, hblank, hmark, beq_eq_false_iff_ne.2 (hne 0 (by decide)),
    beq_eq_false_iff_ne.2 (hne 34 (by decide))]
  rfl

theorem isNumeralByte_written {v : Json} (h : IsNumber v) : ∀ c ∈ v.written, isNumeralByte c = true := by
  cases h with
  | @int n _ _ => exact isNumeralByte_ofInt n
  | @decimal m places h => exact isNumeralByte_decimalText m h.pos

theorem isWord_written {v : Json} (h : IsNumber v) : IsWord v.written := by
  refine ⟨?_, fun c hc => endsWord_of_isNumeralByte (isNumeralByte_written h c hc)⟩
  cases h with
  | @int n _ _ =>
    rw [written, ofInt_eq]
    exact List.append_ne_nil_of_right_ne_nil _ (Bytes.decimal_ne_nil _)
  | @decimal m places h =>
    obtain ⟨whole, fraction, -, -, -, -, htext⟩ := decimalText_eq m h.pos
    rw [written, htext]
    simp

theorem ofWord?_written {v : Json} (h : IsNumber v) : ofWord? v.written = some v := by
  cases h with
  | int hlow hhigh => exact ofWord?_ofInt hlow hhigh
  | decimal h => exact ofWord?_decimalText h

theorem Lexer.start_word (h : endsWord c = false) : start c = (none, word [c]) := by
  simp only [endsWord, Bool.or_eq_false_iff, beq_eq_false_iff_ne] at h
  obtain ⟨⟨⟨hblank, hnul⟩, hquote⟩, hmark⟩ := h
  have hnone : mark? c = none := Option.isNone_iff_eq_none.1 (Option.isSome_eq_false_iff.1 hmark)
  rw [start, if_neg (by simp [hblank]), if_neg hnul, if_neg hquote, hnone]

theorem run_word (h : ∀ c ∈ s, Lexer.endsWord c = false) (read : Bytes) (stage : Stage) :
    Reader.run ⟨.word read, stage⟩ s = some ⟨.word (s.reverse ++ read), stage⟩ := by
  induction s generalizing read with
  | nil => rfl
  | cons c s ih =>
    have hlexer : Lexer.take (.word read) c = some ([], .word (c :: read)) := by
      rw [Lexer.take, h c List.mem_cons_self]
      rfl
    rw [Reader.run_cons, Reader.take_silent hlexer, Option.bind_some, ih fun d hd => h d (List.mem_cons_of_mem c hd),
      List.reverse_cons, List.append_assoc]
    rfl

theorem IsWord.run (h : IsWord s) (stage : Stage) : Reader.run ⟨.between, stage⟩ s = some ⟨.word s.reverse, stage⟩ := by
  obtain ⟨hne, hall⟩ := h
  cases s with
  | nil => exact absurd rfl hne
  | cons c s =>
    have hlexer : Lexer.take .between c = some ([], .word [c]) := by
      rw [Lexer.take, Lexer.start_word (hall c List.mem_cons_self)]
      rfl
    have hrest := run_word (fun d hd => hall d (List.mem_cons_of_mem c hd)) [c] stage
    rw [Reader.run_cons, Reader.take_silent hlexer, Option.bind_some, hrest, List.reverse_cons]

/-! ## Values -/

/-- The stage is reached, or will be as soon as the word that is being read has ended. -/
inductive Reader.Stands (stage : Stage) : Reader → Prop where
  | between : Stands stage ⟨.between, stage⟩
  | word {s : Bytes} {v : Json} {before : Stage} : ofWord? s = some v → before.take (.plain v) = some stage →
      Stands stage ⟨.word s.reverse, before⟩

theorem Reader.Stands.take {r : Reader} (h : Stands stage r) (hc : Lexer.endsWord c = true) :
    r.take c = Reader.take ⟨.between, stage⟩ c := by
  cases h with
  | between => rfl
  | word hword htake =>
    simp [Reader.take, Lexer.take, hc, hword, htake]

theorem Reader.Stands.finish {r : Reader} (h : Stands stage r) : r.finish = Reader.finish ⟨.between, stage⟩ := by
  cases h with
  | between => rfl
  | word hword htake => simp [Reader.finish, Lexer.finish, hword, htake]

/-- Where a value may stand, its text is read as this value. -/
def IsRead (v : Json) : Prop :=
  ∀ around mayClose, ∃ r, Reader.run ⟨.between, .value around mayClose⟩ v.written = some r ∧ r.Stands (.complete v around)

theorem isRead_of_isWord {v : Json} (h : IsWord v.written) (hv : ofWord? v.written = some v) : v.IsRead :=
  fun _ _ => ⟨_, h.run _, .word hv rfl⟩

/-- A mark ends the value before it. -/
theorem IsRead.run_mark {v : Json} (h : v.IsRead) {t : Token} (hend : Lexer.endsWord c = true)
    (hlexer : Lexer.take .between c = some ([t], .between)) (around : List Level) (mayClose : Bool) (s : Bytes) :
    Reader.run ⟨.between, .value around mayClose⟩ (v.written ++ c :: s) =
      ((Stage.complete v around).take t).bind fun stage => Reader.run ⟨.between, stage⟩ s := by
  obtain ⟨r, hrun, hstands⟩ := h around mayClose
  rw [Reader.run_append, hrun, Option.bind_some, Reader.run_cons, hstands.take hend, Reader.take_token hlexer]
  cases (Stage.complete v around).take t <;> rfl

theorem joinWith_cons_cons (sep p q : Bytes) (ps : List Bytes) (s : Bytes) :
    Bytes.joinWith sep (p :: q :: ps) ++ s = p ++ (sep ++ (Bytes.joinWith sep (q :: ps) ++ s)) := by
  rw [Bytes.joinWith, List.append_assoc, List.append_assoc]
  simp

theorem run_items {items : List Json} (hne : items ≠ []) (h : ∀ v ∈ items, v.IsRead) (done : List Json)
    (around : List Level) (mayClose : Bool) :
    Reader.run ⟨.between, .value (.items done :: around) mayClose⟩ (Bytes.joinWith [44] (writtenItems items) ++ [93]) =
      some ⟨.between, .complete (.array (done.reverse ++ items)) around⟩ := by
  induction items generalizing done mayClose with
  | nil => exact absurd rfl hne
  | cons v items ih =>
    have hv := h v List.mem_cons_self
    cases items with
    | nil =>
      have hdone : done.reverse ++ [v] = (v :: done).reverse := List.reverse_cons.symm
      rw [writtenItems, writtenItems, Bytes.joinWith, hv.run_mark rfl rfl, hdone]
      rfl
    | cons w items =>
      have hrest := ih (List.cons_ne_nil w items) (fun u hu => h u (List.mem_cons_of_mem v hu)) (v :: done) false
      rw [List.reverse_cons, List.append_assoc, List.singleton_append] at hrest
      rw [writtenItems, writtenItems, joinWith_cons_cons, List.singleton_append, hv.run_mark rfl rfl]
      exact hrest

/-- The key of a member and the colon after it. -/
theorem run_key {key : Bytes} (h : Utf8.isText key = true) (done : List (Bytes × Json)) (around : List Level)
    (mayClose : Bool) (s : Bytes) :
    Reader.run ⟨.between, .key done around mayClose⟩ (quoted key ++ Byte.colon :: s) =
      Reader.run ⟨.between, .value (.members done key :: around) false⟩ s := by
  have hcolon : Lexer.take .between Byte.colon = some ([.colon], .between) := rfl
  have hkey : (Stage.key done around mayClose).take (.plain (.str key)) = some (.colon key done around) := by
    cases mayClose <;> rfl
  rw [Reader.run_append, run_quoted h, hkey, Option.map_some, Option.bind_some, Reader.run_cons, Reader.take_token hcolon]
  rfl

theorem run_members {members : List (Bytes × Json)} (hne : members ≠ [])
    (hkeys : ∀ m ∈ members, Utf8.isText m.1 = true) (h : ∀ m ∈ members, m.2.IsRead) (done : List (Bytes × Json))
    (around : List Level) (mayClose : Bool) :
    Reader.run ⟨.between, .key done around mayClose⟩ (Bytes.joinWith [44] (writtenMembers members) ++ [125]) =
      some ⟨.between, .complete (.object (members.foldl (fun t p => Table.assign p.1 p.2 t) done)) around⟩ := by
  induction members generalizing done mayClose with
  | nil => exact absurd rfl hne
  | cons m members ih =>
    obtain ⟨key, v⟩ := m
    have hkey : Utf8.isText key = true := hkeys _ List.mem_cons_self
    have hv : v.IsRead := h _ List.mem_cons_self
    cases members with
    | nil =>
      rw [writtenMembers, writtenMembers, Bytes.joinWith, List.append_assoc, List.cons_append, run_key hkey,
        hv.run_mark rfl rfl]
      rfl
    | cons m' members =>
      have hrest := ih (List.cons_ne_nil m' members) (fun u hu => hkeys u (List.mem_cons_of_mem _ hu))
        (fun u hu => h u (List.mem_cons_of_mem _ hu)) (Table.assign key v done) false
      rw [writtenMembers, writtenMembers, joinWith_cons_cons, List.singleton_append, List.append_assoc, List.cons_append,
        run_key hkey, hv.run_mark rfl rfl]
      exact hrest

/-! ## Proper values -/

/-- The values that texts can have: texts are UTF-8, and numbers such as words have them. -/
inductive Proper : Json → Prop where
  | null : Proper null
  | bool (b : Bool) : Proper (bool b)
  | number {v : Json} : IsNumber v → Proper v
  | str {s : Bytes} : Utf8.isText s = true → Proper (str s)
  | array {items : List Json} : (∀ v ∈ items, Proper v) → Proper (array items)
  | object {members : List (Bytes × Json)} : Table.Sorted members → (∀ m ∈ members, Utf8.isText m.1 = true) →
      (∀ m ∈ members, Proper m.2) → Proper (object members)

theorem Proper.isRead {v : Json} (h : v.Proper) : v.IsRead := by
  induction h with
  | null => exact isRead_of_isWord (isWord_of_all (by decide) (by decide)) ofWord?_null
  | bool b =>
    refine isRead_of_isWord (isWord_of_all ?_ ?_) (ofWord?_bool b)
    all_goals cases b <;> decide
  | number h => exact isRead_of_isWord (isWord_written h) (ofWord?_written h)
  | str h => exact fun around mayClose => ⟨_, run_quoted h _, .between⟩
  | @array items _ ih =>
    intro around mayClose
    refine ⟨⟨.between, .complete (.array items) around⟩, ?_, .between⟩
    cases items with
    | nil => rfl
    | cons v items => exact run_items (List.cons_ne_nil v items) ih [] around true
  | @object members hsorted hkeys _ ih =>
    intro around mayClose
    refine ⟨⟨.between, .complete (.object members) around⟩, ?_, .between⟩
    cases members with
    | nil => rfl
    | cons m members =>
      have hrun := run_members (List.cons_ne_nil m members) hkeys ih [] around true
      rw [← Table.ofPairs, Table.ofPairs_of_sorted hsorted] at hrun
      exact hrun

/-! ## Whole texts -/

theorem writtenItems_eq (items : List Json) : writtenItems items = items.map written := by
  induction items with
  | nil => rfl
  | cons v items ih => rw [writtenItems, ih, List.map_cons]

theorem writtenMembers_eq (members : List (Bytes × Json)) :
    writtenMembers members = members.map fun m => quoted m.1 ++ Byte.colon :: written m.2 := by
  induction members with
  | nil => rfl
  | cons m members ih => rw [writtenMembers, ih, List.map_cons]

theorem isText_between {first last : UInt8} (hfirst : first < 0x80) (hlast : last < 0x80) (h : Utf8.isText s = true) :
    Utf8.isText (first :: s ++ [last]) = true := by
  have hopen : Utf8.isText [first] = true := Utf8.isText_of_ascii (by simpa using hfirst)
  have hclose : Utf8.isText [last] = true := Utf8.isText_of_ascii (by simpa using hlast)
  rw [← List.singleton_append, List.append_assoc, Utf8.isText_append hopen, Utf8.isText_append h, hclose]

theorem isText_quoted (s : Bytes) : Utf8.isText (quoted s) = true :=
  isText_between (by decide) (by decide) (isText_escapes (Utf8.isText_mend s))

theorem isText_joinWith {ps : List Bytes} (h : ∀ p ∈ ps, Utf8.isText p = true) :
    Utf8.isText (Bytes.joinWith [44] ps) = true := by
  have hcomma : Utf8.isText [44] = true := by decide
  fun_induction Bytes.joinWith [44] ps with
  | case1 => rfl
  | case2 p => exact h p List.mem_cons_self
  | case3 p ps _ ih =>
    obtain ⟨hp, hps⟩ := List.forall_mem_cons.1 h
    rw [List.append_assoc, Utf8.isText_append hp, Utf8.isText_append hcomma, ih hps]

theorem Proper.isText_written {v : Json} (h : v.Proper) : Utf8.isText v.written = true := by
  have hcolon : Utf8.isText [Byte.colon] = true := by decide
  induction h with
  | null => decide
  | bool b => cases b <;> decide
  | number h => exact Utf8.isText_of_ascii fun c hc => lt_of_isNumeralByte (isNumeralByte_written h c hc)
  | str _ => exact isText_quoted _
  | array _ ih =>
    rw [written, writtenItems_eq]
    exact isText_between (by decide) (by decide) (isText_joinWith (List.forall_mem_map.2 ih))
  | object _ _ _ ih =>
    rw [written, writtenMembers_eq]
    refine isText_between (by decide) (by decide) (isText_joinWith (List.forall_mem_map.2 fun m hm => ?_))
    rw [Utf8.isText_append (isText_quoted m.1), ← List.singleton_append, Utf8.isText_append hcolon, ih m hm]

theorem no_mark_before {v : Json} (h : v.Proper) : byteOrderMark.isPrefixOf v.written = false := by
  cases h with
  | null => rfl
  | bool b => cases b <;> rfl
  | number h =>
    refine Bool.eq_false_iff.2 fun hprefix => ?_
    have hmem : 0xEF ∈ v.written := (List.isPrefixOf_iff_prefix.1 hprefix).subset (by decide)
    exact absurd (isNumeralByte_written h _ hmem) (by decide)
  | str _ => rfl
  | array _ => rfl
  | object _ _ _ => rfl

/-- A value is read as it was written. -/
theorem Proper.read?_written {v : Json} (h : v.Proper) : read? v.written = some v := by
  obtain ⟨r, hrun, hstands⟩ := h.isRead [] false
  have hfinish : r.finish = some v := hstands.finish
  rw [read?, no_mark_before h, if_neg Bool.false_ne_true]
  rw [Reader.run] at hrun
  rw [hrun]
  exact hfinish

/-! ## What is read -/

theorem Proper.isText {s : Bytes} (h : Proper (.str s)) : Utf8.isText s = true := by
  cases h with
  | number h => cases h
  | str h => exact h

/-- A token is a mark, or a proper value. -/
def Token.Fine : Token → Prop
  | .plain v => v.Proper
  | _ => True

theorem proper_of_ofWord? {v : Json} (h : ofWord? s = some v) : v.Proper := by
  rcases ofWord?_cases h with rfl | ⟨b, rfl⟩ | hnumber
  · exact .null
  · exact .bool b
  · exact .number hnumber

theorem Lexer.fine_start (c : UInt8) : ∀ t ∈ (start c).1.toList, t.Fine := by
  unfold start
  split_ifs
  · simp
  · simp
  · simp
  · cases hmark : mark? c with
    | none => simp
    | some t =>
      obtain ⟨l₁, l₂, htable, -⟩ := List.lookup_eq_some_iff.1 hmark
      have hmem := htable ▸ List.mem_append_right l₁ (List.mem_cons_self (a := (c, t)) (l := l₂))
      simp only [List.mem_cons, Prod.mk.injEq, List.not_mem_nil, or_false] at hmem
      rcases hmem with ⟨-, rfl⟩ | ⟨-, rfl⟩ | ⟨-, rfl⟩ | ⟨-, rfl⟩ | ⟨-, rfl⟩ | ⟨-, rfl⟩ <;> simp [Token.Fine]

theorem Lexer.fine_take {lexer lexer' : Lexer} {ts : List Token} (h : lexer.take c = some (ts, lexer')) :
    ∀ t ∈ ts, t.Fine := by
  cases lexer with
  | between =>
    obtain ⟨rfl, -⟩ := Prod.mk.inj (Option.some.inj h)
    exact fine_start c
  | word read =>
    rw [take] at h
    split at h
    next =>
      obtain ⟨v, hv, hv'⟩ := Option.bind_eq_some_iff.1 h
      obtain ⟨rfl, -⟩ := Prod.mk.inj (Option.some.inj hv')
      exact List.forall_mem_cons.2 ⟨proper_of_ofWord? hv, fine_start c⟩
    next =>
      obtain ⟨rfl, -⟩ := Prod.mk.inj (Option.some.inj h)
      simp
  | quote read isEscaping =>
    cases isEscaping with
    | true =>
      obtain ⟨rfl, -⟩ := Prod.mk.inj (Option.some.inj h)
      simp
    | false =>
      rw [take] at h
      split_ifs at h with _ htext
      · obtain ⟨v, hv, hv'⟩ := Option.bind_eq_some_iff.1 h
        obtain ⟨rfl, -⟩ := Prod.mk.inj (Option.some.inj hv')
        have hmeant := isTextAfter_of_unescape? (fun span hspan => by cases hspan) htext hv
        exact List.forall_mem_singleton.2 (.str hmeant)
      · obtain ⟨rfl, -⟩ := Prod.mk.inj (Option.some.inj h)
        simp
  | ended =>
    obtain ⟨rfl, -⟩ := Prod.mk.inj (Option.some.inj h)
    simp

theorem Lexer.fine_finish {lexer : Lexer} {ts : List Token} (h : lexer.finish = some ts) : ∀ t ∈ ts, t.Fine := by
  cases lexer with
  | between =>
    obtain rfl := Option.some.inj h
    simp
  | word read =>
    obtain ⟨v, hv, hv'⟩ := Option.bind_eq_some_iff.1 h
    obtain rfl := Option.some.inj hv'
    exact List.forall_mem_singleton.2 (proper_of_ofWord? hv)
  | quote => cases h
  | ended =>
    obtain rfl := Option.some.inj h
    simp

/-- A table of proper values. -/
structure FineTable (done : List (Bytes × Json)) : Prop where
  sorted : Table.Sorted done
  keys : ∀ m ∈ done, Utf8.isText m.1 = true
  values : ∀ m ∈ done, m.2.Proper

def Level.Fine : Level → Prop
  | .items done => ∀ v ∈ done, v.Proper
  | .members done key => FineTable done ∧ Utf8.isText key = true

/-- What has been read so far is proper. -/
def Stage.Fine : Stage → Prop
  | .value around _ => ∀ l ∈ around, l.Fine
  | .key done around _ => FineTable done ∧ ∀ l ∈ around, l.Fine
  | .colon k done around => Utf8.isText k = true ∧ FineTable done ∧ ∀ l ∈ around, l.Fine
  | .complete v around => v.Proper ∧ ∀ l ∈ around, l.Fine

theorem FineTable.assign {done : List (Bytes × Json)} (h : FineTable done) {key : Bytes} {v : Json}
    (hkey : Utf8.isText key = true) (hv : v.Proper) : FineTable (Table.assign key v done) where
  sorted := h.sorted.assign key v
  keys m hm := by
    rcases Table.mem_assign hm with rfl | hm
    · exact hkey
    · exact h.keys m hm
  values m hm := by
    rcases Table.mem_assign hm with rfl | hm
    · exact hv
    · exact h.values m hm

theorem FineTable.nil : FineTable [] := ⟨List.Pairwise.nil, by simp, by simp⟩

theorem FineTable.object {done : List (Bytes × Json)} (h : FineTable done) : Proper (.object done) :=
  .object h.sorted h.keys h.values

theorem Stage.Fine.take {stage stage' : Stage} {t : Token} (h : stage.Fine) (ht : t.Fine)
    (htake : stage.take t = some stage') : stage'.Fine := by
  unfold Stage.take at htake
  split at htake
  next around _ v => cases htake; exact ⟨ht, h⟩
  next around _ => cases htake; exact List.forall_mem_cons.2 ⟨fun v hv => (by cases hv), h⟩
  next around _ => cases htake; exact ⟨.nil, h⟩
  next done around =>
    cases htake
    exact ⟨.array fun v hv => (by cases hv), (List.forall_mem_cons.1 h).2⟩
  next done around _ k => cases htake; exact ⟨Proper.isText ht, h⟩
  next done around => cases htake; exact ⟨FineTable.nil.object, h.2⟩
  next k done around => cases htake; exact List.forall_mem_cons.2 ⟨⟨h.2.1, h.1⟩, h.2.2⟩
  next v done around =>
    cases htake
    obtain ⟨hdone, haround⟩ := List.forall_mem_cons.1 h.2
    exact List.forall_mem_cons.2 ⟨List.forall_mem_cons.2 ⟨h.1, hdone⟩, haround⟩
  next v done around =>
    cases htake
    obtain ⟨hdone, haround⟩ := List.forall_mem_cons.1 h.2
    refine ⟨.array fun w hw => ?_, haround⟩
    exact List.forall_mem_cons.2 ⟨h.1, hdone⟩ w (List.mem_reverse.1 hw)
  next v done k around =>
    cases htake
    obtain ⟨⟨hdone, hk⟩, haround⟩ := List.forall_mem_cons.1 h.2
    exact ⟨hdone.assign hk h.1, haround⟩
  next v done k around =>
    cases htake
    obtain ⟨⟨hdone, hk⟩, haround⟩ := List.forall_mem_cons.1 h.2
    exact ⟨(hdone.assign hk h.1).object, haround⟩
  next => cases htake

theorem Stage.Fine.takeAll {stage stage' : Stage} {ts : List Token} (h : stage.Fine) (hts : ∀ t ∈ ts, t.Fine)
    (htake : ts.foldlM Stage.take stage = some stage') : stage'.Fine := by
  induction ts generalizing stage with
  | nil =>
    obtain rfl := Option.some.inj htake
    exact h
  | cons t ts ih =>
    obtain ⟨ht, hts⟩ := List.forall_mem_cons.1 hts
    obtain ⟨next, hnext, hrest⟩ := Option.bind_eq_some_iff.1 htake
    exact ih (h.take ht hnext) hts hrest

theorem Reader.fine_take {r r' : Reader} (h : r.stage.Fine) (htake : r.take c = some r') : r'.stage.Fine := by
  obtain ⟨⟨ts, lexer⟩, hlexer, hlexer'⟩ := Option.bind_eq_some_iff.1 htake
  obtain ⟨stage, hstage, hstage'⟩ := Option.bind_eq_some_iff.1 hlexer'
  obtain rfl := Option.some.inj hstage'
  exact h.takeAll (Lexer.fine_take hlexer) hstage

theorem Reader.fine_run {r r' : Reader} (h : r.stage.Fine) (hrun : r.run s = some r') : r'.stage.Fine := by
  induction s generalizing r with
  | nil =>
    obtain rfl := Option.some.inj hrun
    exact h
  | cons c s ih =>
    obtain ⟨next, hnext, hrest⟩ := Option.bind_eq_some_iff.1 hrun
    exact ih (fine_take h hnext) hrest

/-- Whatever the text, the value that is read is proper. -/
theorem Proper.of_read? {v : Json} (h : read? s = some v) : v.Proper := by
  obtain ⟨r, hrun, hfinish⟩ := Option.bind_eq_some_iff.1 h
  obtain ⟨ts, hts, hts'⟩ := Option.bind_eq_some_iff.1 hfinish
  obtain ⟨stage, hstage, hresult⟩ := Option.bind_eq_some_iff.1 hts'
  have hstart : Stage.Fine (.value [] false) := fun l hl => by cases hl
  have hfine := (Reader.fine_run hstart hrun).takeAll (Lexer.fine_finish hts) hstage
  unfold Stage.result? at hresult
  split at hresult
  next =>
    obtain rfl := Option.some.inj hresult
    exact hfine.1
  next => cases hresult

/-- The proper values are those that texts have, and each is told by its own text. -/
theorem proper_iff {v : Json} : v.Proper ↔ read? v.written = some v :=
  ⟨Proper.read?_written, Proper.of_read?⟩

end LanguageClient.Json

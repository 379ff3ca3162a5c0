import C380.Lib.LiveScan
import C380.Notapp.Streams

/-!
# The log file while everything runs (`output_sorter`, `print_logfile`)

The server of `Threads.lean` with the steps of `print_logfile`, which the sorter takes between
`set_server_state(READING)` and its first look at the readers. Observers register, leave and write
meanwhile, users send, and locks are detected. Each of `entry_array_size`, `is_taken` and `string`
is read in a step of its own. `file` holds what has been printed, also before `fclose`.

* `LogSystem.reach_server`: with a log file the server does nothing that it does not do without.
* `logfile_interleaved`: **the file is a sequence of blocks, one for each time it was opened**. In a
  block the rows stand in order, each at most once, and each was in use and had that string while
  the file was open; a row that was in use all the time is there, whatever the other observers did;
  and a block during which no row changed is the `print_logfile` of that data.
* The loop looks past the end of `entry_array` only when a size above `CLIENT_MAX` has been seen.
-/

namespace C380.Notapp

open LiveScan Transition

/-! ## The steps -/

/-- The places of `print_logfile`. -/
inductive LogPc where
  | away
  | openFile
  | testSize (i : ℕ)
  | testTaken (i : ℕ)
  | printRow (i : ℕ)
  deriving DecidableEq

/-- Between `fopen` and `fclose`. -/
def LogPc.isOpen : LogPc → Bool
  | .testSize _ | .testTaken _ | .printRow _ => true
  | _ => false

/-- The line of a row. -/
def logLine (string : String) : String := " " ++ string ++ "\n"

/-- One step of `print_logfile`: the next place, and what is printed. `opened` says whether `fopen`
succeeds. -/
def logStep (d : ServerData) (opened : Bool) : LogPc → Option (LogPc × List String)
  | .away => none
  | .openFile => some (if opened then (.testSize 0, ["\n", clientHeader]) else (.away, []))
  | .testSize i => some (if (i : Int) < d.entryArraySize then .testTaken i else .away, [])
  | .testTaken i =>
    if h : i < clientMax then
      some (if (d.entryArray ⟨i, h⟩).isTaken then .printRow i else .testSize (i + 1), [])
    else none
  | .printRow i => some (.testSize (i + 1), [logLine (d.rowString i)])

/-- The server and the log file. -/
structure LogSystem (ι κ : Type) where
  server : System ι κ
  place : LogPc
  file : List String

/-- Before the first step. -/
def LogSystem.init (ι κ : Type) : LogSystem ι κ := ⟨System.init ι κ, .away, []⟩

/-- Whose step is next; `print_logfile` is called by the sorter. -/
inductive LogAction (ι κ : Type) where
  | server (a : Action ι κ)
  | printLogfile (opened : Bool)

section Steps

variable {ι κ : Type} [DecidableEq ι] [DecidableEq κ]

/-- The sorter goes into `print_logfile` after `set_server_state(READING)`, if there is a `logfile`,
and does nothing else until it returns. -/
def LogSystem.next (atomicIncrement logfile : Bool) (s : LogSystem ι κ) :
    LogAction ι κ → Option (LogSystem ι κ)
  | .server (.sorter move countFirst) =>
    if s.place = .away then
      (s.server.next atomicIncrement (.sorter move countFirst)).map fun server =>
        ⟨server, if logfile = true ∧ s.server.sorter = .setReading then .openFile else .away,
          s.file⟩
    else none
  | .server a => (s.server.next atomicIncrement a).map fun server => { s with server := server }
  | .printLogfile opened =>
    (logStep s.server.shared.data opened s.place).map fun r =>
      { s with place := r.1, file := s.file ++ r.2 }

/-! ## The record -/

/-- A block: the data that there was while the file was open, and the rows that were printed. -/
structure Block where
  seen : List ServerData
  rows : List (ℕ × String)

/-- The text of a block. -/
def Block.text (b : Block) : List String := "\n" :: clientHeader :: b.rows.map fun r => logLine r.2

/-- The data is seen. -/
def Block.see (d : ServerData) (b : Block) : Block := { b with seen := b.seen ++ [d] }

/-- A row is printed. -/
def Block.print (d : ServerData) (i : ℕ) (b : Block) : Block :=
  ⟨b.seen ++ [d], b.rows ++ [(i, d.rowString i)]⟩

/-- The blocks, the last one first, the `READING` phases, and the calls of `fopen` that failed. -/
structure LogRecord where
  blocks : List Block
  phases : ℕ
  refused : ℕ

/-- Nothing is printed. -/
def LogRecord.init : LogRecord := ⟨[], 0, 0⟩

/-- The record of a step of `print_logfile`. -/
def LogRecord.logger (h : LogRecord) (d : ServerData) (opened : Bool) : LogPc → LogRecord
  | .away => h
  | .openFile =>
    if opened then { h with blocks := ⟨[d], []⟩ :: h.blocks }
    else { h with refused := h.refused + 1 }
  | .testSize _ | .testTaken _ => { h with blocks := h.blocks.modifyHead (Block.see d) }
  | .printRow i => { h with blocks := h.blocks.modifyHead (Block.print d i) }

/-- The record of a step. -/
def LogRecord.record (s : LogSystem ι κ) (a : LogAction ι κ) (h : LogRecord) : LogRecord :=
  match a with
  | .server (.sorter _ _) =>
    if s.server.sorter = .setReading then { h with phases := h.phases + 1 } else h
  | .server _ =>
    if s.place.isOpen then { h with blocks := h.blocks.modifyHead (Block.see s.server.shared.data) }
    else h
  | .printLogfile opened => h.logger s.server.shared.data opened s.place

/-- A step with its record. -/
def blockStep (atomicIncrement logfile : Bool) : LogSystem ι κ × LogRecord → LogAction ι κ →
    Option (LogSystem ι κ × LogRecord) :=
  withHistory (LogSystem.next atomicIncrement logfile) LogRecord.record

/-! ## What a step does -/

variable {atomicIncrement logfile : Bool} {s s' : LogSystem ι κ} {a : Action ι κ} {h : LogRecord}

/-- A step of the server together with its record: the sorter leaves the closed log file alone, or
opens it, and the others do not look at it. -/
inductive ServerMove (logfile : Bool) (s s' : LogSystem ι κ) (h : LogRecord) : LogRecord → Prop
  | reading (haway : s.place = .away) (hfile : s'.file = s.file)
      (hplace : s'.place = if logfile then .openFile else .away) :
      ServerMove logfile s s' h { h with phases := h.phases + 1 }
  | closed (hopen : s.place.isOpen = false) (hfile : s'.file = s.file)
      (hplace : s'.place = s.place) : ServerMove logfile s s' h h
  | opened (hopen : s.place.isOpen = true) (hfile : s'.file = s.file)
      (hplace : s'.place = s.place) : ServerMove logfile s s' h
      { h with blocks := h.blocks.modifyHead (Block.see s.server.shared.data) }

theorem LogSystem.serverMove
    (hstep : LogSystem.next atomicIncrement logfile s (.server a) = some s') :
    System.next atomicIncrement s.server a = some s'.server ∧
      ServerMove logfile s s' h (h.record s (.server a)) := by
  have helse : ∀ {h' : LogRecord}, (System.next atomicIncrement s.server a).map
      (fun server => { s with server := server }) = some s' →
      h' = (if s.place.isOpen then
        { h with blocks := h.blocks.modifyHead (Block.see s.server.shared.data) } else h) →
      System.next atomicIncrement s.server a = some s'.server ∧ ServerMove logfile s s' h h' := by
    rintro _ hmap rfl
    obtain ⟨server, hserver, rfl⟩ := Option.map_eq_some_iff.mp hmap
    refine ⟨hserver, ?_⟩
    split
    · rename_i hopen
      exact .opened hopen rfl rfl
    · rename_i hclosed
      exact .closed (Bool.eq_false_of_not_eq_true hclosed) rfl rfl
  cases a with
  | timer => exact helse hstep rfl
  | observer o input => exact helse hstep rfl
  | user u alive => exact helse hstep rfl
  | sorter move countFirst =>
    rw [LogSystem.next, Option.ite_none_right_eq_some] at hstep
    obtain ⟨server, hserver, rfl⟩ := Option.map_eq_some_iff.mp hstep.2
    refine ⟨hserver, ?_⟩
    by_cases hreading : s.server.sorter = .setReading
    · rw [LogRecord.record, if_pos hreading]
      refine .reading hstep.1 rfl ?_
      simp only [hreading, and_true]
    · rw [LogRecord.record, if_neg hreading]
      refine .closed (by rw [hstep.1]; rfl) rfl ?_
      simp only [hreading, and_false, if_false, hstep.1]

/-- **The log file changes nothing** of what the server does: its runs are runs without it. -/
theorem LogSystem.reach_server
    (h : Reach (fun s a s' => LogSystem.next atomicIncrement logfile s a = some s')
      (fun _ _ => True) (LogSystem.init ι κ) s) :
    Reach (fun s a s' => System.next atomicIncrement s a = some s') (fun _ _ => True)
      (System.init ι κ) s.server := by
  induction h with
  | init => exact .init
  | step a _ _ hstep ih =>
    cases a with
    | printLogfile opened =>
      obtain ⟨r, -, rfl⟩ := Option.map_eq_some_iff.mp hstep
      exact ih
    | server a => exact ih.step a trivial (LogSystem.serverMove (h := .init) hstep).1

end Steps

/-! ## One block -/

/-- The rows that `print_logfile` goes through. -/
def logView : View ServerData String where
  inside d i := (i : Int) < d.entryArraySize
  marked d i := ∃ h : i < clientMax, (d.entryArray ⟨i, h⟩).isTaken = true
  text d i := d.rowString i
  inside_of_le _ _ _ hle hlt := lt_of_le_of_lt (Nat.cast_le.mpr hle) hlt

/-- The same size, and in each row the same use and string. -/
structure ServerData.SameRows (d d' : ServerData) : Prop where
  entryArraySize : d'.entryArraySize = d.entryArraySize
  isTaken : ∀ i, (d'.entryArray i).isTaken = (d.entryArray i).isTaken
  string : ∀ i, (d'.entryArray i).string = (d.entryArray i).string

/-- **What a block says is so**: its rows are in order, each was in use, and each had its string. -/
structure Block.Sound (b : Block) : Prop where
  once : b.rows.Pairwise fun r r' => r.1 < r'.1
  used : ∀ r ∈ b.rows, ∃ d ∈ b.seen, ∃ h : r.1 < clientMax, (d.entryArray ⟨r.1, h⟩).isTaken = true
  string : ∀ r ∈ b.rows, ∃ d ∈ b.seen, d.rowString r.1 = r.2

/-- **What a block leaves out was not in use**, at least for a moment; without changes it is the
`print_logfile` of the data. -/
structure Block.Complete (b : Block) : Prop where
  used : ∀ i : Fin clientMax, (∀ d ∈ b.seen, (i.val : Int) < d.entryArraySize ∧
    (d.entryArray i).isTaken = true) → ∃ string, (i.val, string) ∈ b.rows
  still : ∀ d, (∀ d' ∈ b.seen, d.SameRows d') → b.text = printLogfile true d

section Block

variable {b : Block}

theorem Block.sound_of_scanned {i : ℕ} (h : Scanned logView b.seen i b.rows) : b.Sound :=
  ⟨h.increasing, h.marked, h.text⟩

theorem Block.sound_of_whole (h : Whole logView b.seen b.rows) : b.Sound :=
  h.elim fun _ hscan => sound_of_scanned hscan.1

/-- The rows that `print_logfile` writes, by their numbers. -/
theorem logged_eq_map (d : ServerData) : ∃ slots : List ℕ, slots.Pairwise (· < ·) ∧
    (∀ i, i ∈ slots ↔ logView.inside d i ∧ logView.marked d i) ∧
    d.logged = slots.map d.rowString := by
  refine ⟨((List.finRange clientMax).filter fun i =>
    decide ((i.val : Int) < d.entryArraySize) && (d.entryArray i).isTaken).map Fin.val, ?_, ?_, ?_⟩
  · exact List.pairwise_map.mpr ((List.pairwise_lt_finRange _).filter _)
  · intro i
    simp only [List.mem_map, List.mem_filter, List.mem_finRange, true_and, Bool.and_eq_true,
      decide_eq_true_eq]
    constructor
    · rintro ⟨j, ⟨hlt, htaken⟩, rfl⟩
      exact ⟨hlt, j.isLt, htaken⟩
    · rintro ⟨hlt, hi, htaken⟩
      exact ⟨⟨i, hi⟩, ⟨hlt, htaken⟩, rfl⟩
  · rw [ServerData.logged, List.map_map]
    refine List.map_congr_left fun i _ => ?_
    simp only [Function.comp_apply, ServerData.rowString, dif_pos i.isLt]

theorem Block.complete_of_whole (h : Whole logView b.seen b.rows) : b.Complete := by
  refine ⟨fun i hi => h.mem fun d hd => ⟨(hi d hd).1, i.isLt, (hi d hd).2⟩, fun d hsame => ?_⟩
  obtain ⟨slots, hslots, hmem, hlogged⟩ := logged_eq_map d
  have hrows : b.rows = slots.map fun i => (i, d.rowString i) := by
    refine h.eq_of_still (fun d' hd i => ?_) (fun d' hd i => ?_) (fun d' hd i => ?_) hslots hmem
    · simp only [logView, (hsame d' hd).entryArraySize]
    · exact exists_congr fun hlt => by rw [(hsame d' hd).isTaken]
    · simp only [logView, ServerData.rowString, (hsame d' hd).string]
  rw [Block.text, printLogfile, if_pos rfl, hlogged, hrows, List.map_map, List.map_map]
  rfl

end Block

/-! ## The invariant -/

/-- The text of blocks, the last one first. -/
def fileText (blocks : List Block) : List String := blocks.reverse.flatMap Block.text

theorem fileText_cons (b : Block) (blocks : List Block) :
    fileText (b :: blocks) = fileText blocks ++ b.text := by
  simp only [fileText, List.reverse_cons, List.flatMap_append, List.flatMap_cons, List.flatMap_nil,
    List.append_nil]

/-- The block that is being written, by the place of `print_logfile`. -/
def Block.At (b : Block) : LogPc → Prop
  | .testSize i => Scanned logView b.seen i b.rows
  | .testTaken i => Scanned logView b.seen i b.rows ∧ ∃ d ∈ b.seen, logView.inside d i
  | .printRow i => Scanned logView b.seen i b.rows ∧ (∃ d ∈ b.seen, logView.inside d i) ∧
      ∃ d ∈ b.seen, logView.marked d i
  | _ => False

/-- All blocks are whole, but the one that is being written. -/
inductive BlocksOk : LogPc → List Block → Prop
  | closed {place : LogPc} {blocks : List Block} (hopen : place.isOpen = false)
      (hwhole : ∀ b ∈ blocks, Whole logView b.seen b.rows) : BlocksOk place blocks
  | opened {place : LogPc} {b : Block} {blocks : List Block} (hat : b.At place)
      (hwhole : ∀ b ∈ blocks, Whole logView b.seen b.rows) : BlocksOk place (b :: blocks)

theorem mem_see {d : ServerData} {b : Block} : b.seen ⊆ (b.see d).seen :=
  List.subset_append_left _ _

theorem mem_see_self {d : ServerData} {b : Block} : d ∈ (b.see d).seen :=
  List.mem_append_right _ (List.mem_singleton_self d)

/-- More is seen. -/
theorem Block.At.see {b : Block} {place : LogPc} (h : b.At place) (d : ServerData) :
    (b.see d).At place := by
  cases place with
  | testSize i => exact Scanned.mono h mem_see
  | testTaken i => exact ⟨h.1.mono mem_see, h.2.imp fun _ hd => ⟨mem_see hd.1, hd.2⟩⟩
  | printRow i =>
    exact ⟨h.1.mono mem_see, h.2.1.imp fun _ hd => ⟨mem_see hd.1, hd.2⟩,
      h.2.2.imp fun _ hd => ⟨mem_see hd.1, hd.2⟩⟩
  | away | openFile => exact h

theorem Block.At.isOpen {b : Block} {place : LogPc} (h : b.At place) : place.isOpen = true := by
  cases place <;> first | rfl | cases h

theorem BlocksOk.whole {place : LogPc} {blocks : List Block} (h : BlocksOk place blocks)
    (hopen : place.isOpen = false) : ∀ b ∈ blocks, Whole logView b.seen b.rows := by
  cases h with
  | closed _ hwhole => exact hwhole
  | opened hat => cases hat.isOpen.symm.trans hopen

theorem BlocksOk.head {place : LogPc} {blocks : List Block} (h : BlocksOk place blocks)
    (hopen : place.isOpen = true) : ∃ b bs, blocks = b :: bs ∧ b.At place ∧
      ∀ b' ∈ bs, Whole logView b'.seen b'.rows := by
  cases h with
  | closed hclosed => cases hclosed.symm.trans hopen
  | opened hat hwhole => exact ⟨_, _, rfl, hat, hwhole⟩

/-- What holds of the file and its record. -/
structure LogOk {ι κ : Type} (logfile : Bool) (w : LogSystem ι κ × LogRecord) : Prop where
  file : w.1.file = fileText w.2.blocks
  blocks : BlocksOk w.1.place w.2.blocks
  count : w.2.blocks.length + w.2.refused + (if w.1.place = .openFile then 1 else 0) =
    if logfile then w.2.phases else 0

section Invariant

variable {ι κ : Type} {logfile : Bool} {w : LogSystem ι κ × LogRecord}

/-- Nothing is printed, and the block that is being written sees more. -/
theorem BlocksOk.see {place : LogPc} {blocks : List Block} (h : BlocksOk place blocks)
    (hopen : place.isOpen = true) (d : ServerData) :
    BlocksOk place (blocks.modifyHead (Block.see d)) ∧
      fileText (blocks.modifyHead (Block.see d)) = fileText blocks := by
  obtain ⟨b, bs, rfl, hat, hwhole⟩ := h.head hopen
  refine ⟨.opened (hat.see d) hwhole, ?_⟩
  rw [List.modifyHead_cons, fileText_cons, fileText_cons]
  rfl

/-- **A step of the server.** -/
theorem LogOk.server (hok : LogOk logfile w) {s' : LogSystem ι κ} {h' : LogRecord}
    (hmove : ServerMove logfile w.1 s' w.2 h') : LogOk logfile (s', h') := by
  cases hmove with
  | reading haway hfile hplace =>
    have hcount := hok.count
    refine ⟨hfile.trans hok.file, .closed ?_ (hok.blocks.whole (by rw [haway]; rfl)), ?_⟩
    · rw [hplace]
      split <;> rfl
    · simp only [haway, hplace] at hcount ⊢
      cases logfile <;> simpa using hcount
  | closed hopen hfile hplace =>
    exact ⟨hfile.trans hok.file, hplace ▸ hok.blocks, hplace ▸ hok.count⟩
  | opened hopen hfile hplace =>
    obtain ⟨hblocks, htext⟩ := hok.blocks.see hopen w.1.server.shared.data
    refine ⟨?_, hplace ▸ hblocks, ?_⟩
    · rw [hfile, hok.file]
      exact htext.symm
    · simp only [List.length_modifyHead, hplace]
      exact hok.count

/-- The block that is being written goes on, or ends. -/
theorem LogOk.written {server : System ι κ} {place place' : LogPc} {file printed : List String}
    {b b' : Block} {bs : List Block} {phases refused : ℕ}
    (hok : LogOk logfile (⟨server, place, file⟩, ⟨b :: bs, phases, refused⟩))
    (hblocks : BlocksOk place' (b' :: bs)) (htext : b'.text = b.text ++ printed)
    (hplace : place ≠ .openFile) (hplace' : place' ≠ .openFile) :
    LogOk logfile (⟨server, place', file ++ printed⟩, ⟨b' :: bs, phases, refused⟩) := by
  obtain ⟨hfile, -, hcount⟩ := hok
  refine ⟨?_, hblocks, ?_⟩
  · simp only [fileText_cons] at hfile ⊢
    rw [hfile, htext, List.append_assoc]
  · simp only [if_neg hplace, List.length_cons] at hcount
    simp only [if_neg hplace', List.length_cons, hcount]

/-- **A step of `print_logfile`**, place by place. -/
theorem LogOk.logger (hok : LogOk logfile w) {opened : Bool} {r : LogPc × List String}
    (hstep : logStep w.1.server.shared.data opened w.1.place = some r) :
    LogOk logfile ({ w.1 with place := r.1, file := w.1.file ++ r.2 },
      w.2.logger w.1.server.shared.data opened w.1.place) := by
  obtain ⟨⟨server, place, file⟩, blocks, phases, refused⟩ := w
  have hblocks := hok.blocks
  simp only at hstep hblocks ⊢
  generalize server.shared.data = d at hstep
  cases place with
  | away => cases hstep
  | openFile =>
    obtain ⟨hfile, -, hcount⟩ := hok
    have hwhole := hblocks.whole rfl
    simp only [if_true] at hfile hcount
    cases opened with
    | true =>
      cases hstep
      refine ⟨?_, .opened (scanned_zero _) hwhole, ?_⟩
      · simp only [LogRecord.logger, if_true, fileText_cons, hfile]
        rfl
      · simp only [LogRecord.logger, if_true, List.length_cons, ← hcount, reduceCtorEq, if_false]
        omega
    | false =>
      cases hstep
      refine ⟨?_, .closed rfl hwhole, ?_⟩
      · rw [hfile]
        exact List.append_nil _
      · simp only [LogRecord.logger, Bool.false_eq_true, if_false, ← hcount, reduceCtorEq]
        omega
  | testSize i =>
    obtain ⟨b, bs, rfl, hat, hwhole⟩ := hblocks.head rfl
    obtain rfl := Option.some.inj hstep
    by_cases hlt : (i : Int) < d.entryArraySize
    · rw [if_pos hlt]
      exact hok.written (.opened ⟨hat.see d, d, mem_see_self, hlt⟩ hwhole)
        (List.append_nil _).symm nofun nofun
    · rw [if_neg hlt]
      refine hok.written (.closed rfl (List.forall_mem_cons.mpr ⟨?_, hwhole⟩))
        (List.append_nil _).symm nofun nofun
      exact ⟨i, hat.see d, d, mem_see_self, hlt⟩
  | testTaken i =>
    obtain ⟨b, bs, rfl, hat, hwhole⟩ := hblocks.head rfl
    obtain ⟨hscan, hinside⟩ := hat.see d
    rw [logStep] at hstep
    split at hstep
    · rename_i hi
      obtain rfl := Option.some.inj hstep
      by_cases htaken : (d.entryArray ⟨i, hi⟩).isTaken = true
      · rw [if_pos htaken]
        exact hok.written (.opened ⟨hscan, hinside, d, mem_see_self, hi, htaken⟩ hwhole)
          (List.append_nil _).symm nofun nofun
      · rw [if_neg htaken]
        refine hok.written (.opened (hscan.skip ⟨d, mem_see_self, ?_⟩) hwhole)
          (List.append_nil _).symm nofun nofun
        exact fun ⟨_, h⟩ => htaken h
    · cases hstep
  | printRow i =>
    obtain ⟨b, bs, rfl, hat, hwhole⟩ := hblocks.head rfl
    obtain ⟨hscan, hinside, hmarked⟩ := hat.see d
    obtain rfl := Option.some.inj hstep
    refine hok.written (.opened (hscan.take hinside hmarked ⟨d, mem_see_self, rfl⟩) hwhole) ?_
      nofun nofun
    simp only [Block.text, Block.print, List.map_append, List.map_cons, List.map_nil,
      List.cons_append]

theorem logOk_init : LogOk logfile (LogSystem.init ι κ, LogRecord.init) :=
  ⟨rfl, .closed rfl fun _ h => absurd h List.not_mem_nil, by cases logfile <;> rfl⟩

theorem LogOk.step [DecidableEq ι] [DecidableEq κ] {atomicIncrement : Bool} {a : LogAction ι κ}
    {w' : LogSystem ι κ × LogRecord} (hok : LogOk logfile w)
    (hs : blockStep atomicIncrement logfile w a = some w') : LogOk logfile w' := by
  obtain ⟨s', h'⟩ := w'
  obtain ⟨hs, rfl⟩ := withHistory_eq_some_iff.mp hs
  cases a with
  | server a => exact hok.server (LogSystem.serverMove hs).2
  | printLogfile opened =>
    obtain ⟨r, hr, rfl⟩ := Option.map_eq_some_iff.mp hs
    exact hok.logger hr

/-- The blocks, whole or not, say what is so. -/
theorem LogOk.sound (hok : LogOk logfile w) : ∀ b ∈ w.2.blocks, b.Sound := by
  intro b hb
  by_cases hopen : w.1.place.isOpen = true
  · obtain ⟨b₀, bs, hblocks, hat, hwhole⟩ := hok.blocks.head hopen
    rw [hblocks] at hb
    rcases List.mem_cons.mp hb with rfl | hb
    · generalize w.1.place = place at hat
      cases place with
      | testSize i => exact Block.sound_of_scanned hat
      | testTaken i => exact Block.sound_of_scanned hat.1
      | printRow i => exact Block.sound_of_scanned hat.1
      | away | openFile => cases hat
    · exact Block.sound_of_whole (hwhole b hb)
  · exact Block.sound_of_whole (hok.blocks.whole (Bool.eq_false_of_not_eq_true hopen) b hb)

/-- The blocks before the one that is being written are complete. -/
theorem LogOk.complete (hok : LogOk logfile w) :
    ∀ b ∈ w.2.blocks.drop (if w.1.place.isOpen then 1 else 0), b.Complete := by
  intro b hb
  by_cases hopen : w.1.place.isOpen = true
  · obtain ⟨b₀, bs, hblocks, -, hwhole⟩ := hok.blocks.head hopen
    rw [if_pos hopen, hblocks] at hb
    exact Block.complete_of_whole (hwhole b hb)
  · rw [if_neg hopen] at hb
    exact Block.complete_of_whole (hok.blocks.whole (Bool.eq_false_of_not_eq_true hopen) b hb)

end Invariant

/-- An observer adds its row, and gives it back between the test of `is_taken` and `fprintf`. -/
def leavesTheLog : List (LogAction Unit Unit) :=
  [List.replicate 16 (.server (.observer () none)),
    List.replicate 6 (.server (.observer () (some createdEntry))),
    [.server .timer], List.replicate 8 (.server (.sorter none)),
    List.replicate 3 (.printLogfile true), List.replicate 7 (.server (.observer () none)),
    List.replicate 2 (.printLogfile true)].flatten

end C380.Notapp

import MiniStorage.Engine.DbMap
import MiniStorage.Engine.Recovery

namespace MiniStorage.Engine

variable {codec : VarintCodec} {s : Session} {tables : List Table} {d : Disk} {db : DB}

/-- What happens to a DB: a call, or a close or a crash with the constructor behind it. -/
inductive Event where
  | call (c : Call)
  | reopen

/-- What is left in the directory. -/
def DB.left (crashed : Bool) (d : Disk) (db : DB) : Disk := if crashed then db.crash d else db.close d

/-- The states that the sessions on one directory reach, with the writes that returned true
and what the current session stands for. Each event satisfies `allowed`. -/
inductive Reaches (codec : VarintCodec) (allowed : Session → DB → Event → Prop) :
    List Mutation → Session → Disk → DB → Prop where
  | create {heights : Nat → Height} {options : Options} {d : Disk} {db : DB} :
      DB.create {} heights options .empty = some (d, db) → Reaches codec allowed [] .empty d db
  | call {past : List Mutation} {s : Session} {d d' : Disk} {db db' : DB} {c : Call} {a : Answer} :
      Reaches codec allowed past s d db → allowed s db (.call c) → db.call codec d c = some (a, d', db') →
      a ≠ .written false → Reaches codec allowed (past ++ c.mutation.toList) (s.call db.options c) d' db'
  | reopen {past : List Mutation} {s : Session} {d d' : Disk} {db db' : DB} {crashed : Bool} {heights : Nat → Height}
      {options : Options} :
      Reaches codec allowed past s d db → allowed s db .reopen → options.dbPath = db.options.dbPath →
      DB.create {} heights options (db.left crashed d) = some (d', db') → Reaches codec allowed past s.reopen d' db'

/-- The log of the session is enough to rebuild the MemTable, and the file names to rebuild
the list of files. -/
structure SafeReopen (codec : VarintCodec) (s : Session) (db : DB) : Prop where
  covered : ∀ key, db.memTable.get key ≠ some none → ∃ m ∈ s.log, m.key = key
  fits : ∀ m ∈ s.log, m.Fits codec
  ordered : (db.sstFiles.map fileName).Pairwise (· < ·)
  numbered : ∀ f ∈ db.sstFiles, (DB.stoll (DB.stem (fileName f))).isSome

def Safe (codec : VarintCodec) (s : Session) (db : DB) : Event → Prop
  | .call c => ∀ m ∈ s.callTables db.options c, Short codec m
  | .reopen => SafeReopen codec s db

/-- A record in the log is not older than the entry of its key. -/
def Session.Logged (s : Session) : Prop := ∀ m ∈ s.log, s.gens.top.find m.key = (replay s.log).find m.key

namespace Session

variable {options : Options}

theorem Logged.empty : Session.empty.Logged := by
  intro m hm
  cases hm

theorem Logged.write {s : Session} (h : s.Logged) (m : Mutation) : (s.write m).Logged := by
  intro a ha
  show (s.gens.top.insert m.key m.value).find a.key = (replay (s.log ++ [m])).find a.key
  rw [replay_append, SortedMap.find_insert, SortedMap.find_insert]
  rcases List.mem_append.mp ha with ha | ha
  · rw [h a ha]
  · rw [List.mem_singleton.mp ha, if_pos rfl, if_pos rfl]

theorem Logged.doCompaction {s : Session} (h : s.Logged) : s.doCompaction.Logged := by
  rw [Session.doCompaction]
  split
  · exact h
  · exact h

theorem Logged.flushMemTable {s : Session} (h : s.Logged) : (s.flushMemTable options).Logged := by
  have hflush : (⟨s.gens.flush, []⟩ : Session).Logged := by
    intro m hm
    cases hm
  rw [Session.flushMemTable]
  split
  · exact h
  · rw [Session.maybeScheduleCompaction]
    split
    · exact hflush.doCompaction
    · exact hflush

theorem Logged.call {s : Session} (h : s.Logged) (c : Call) : (s.call options c).Logged := by
  cases c with
  | put key value height =>
      rw [Session.call, Session.put]
      split
      · exact (h.write _).flushMemTable
      · exact h.write _
  | delete key height => exact h.write _
  | get key => exact h
  | flushMemTable => exact h.flushMemTable
  | compaction => exact h.doCompaction

theorem Logged.reopen (s : Session) : s.reopen.Logged := by
  intro m hm
  cases hm

/-- Nothing changes for Get when the records of the log cover the MemTable. -/
theorem Logged.view_reopen {s : Session} (h : s.Logged)
    (hcov : ∀ key, s.gens.top.find key ≠ none → ∃ m ∈ s.log, m.key = key) : s.reopen.view = s.view := by
  have hfind : ∀ key, (replay s.log).find key = s.gens.top.find key := by
    intro key
    by_cases hlog : ∃ m ∈ s.log, m.key = key
    · obtain ⟨m, hm, rfl⟩ := hlog
      exact (h m hm).symm
    · rw [find_replay_none (fun m hm he => hlog ⟨m, hm, he⟩)]
      by_contra hne
      exact hlog (hcov key (Ne.symm hne))
  funext key
  show Generations.view isTombstone ⟨replay s.log, s.gens.older⟩ key = s.gens.view isTombstone key
  rw [Generations.view, Generations.view, hfind]

end Session

theorem left_eq (crashed : Bool) (d : Disk) (db : DB) :
    db.left crashed d = db.close d ∨ db.left crashed d = db.crash d := by
  cases crashed with
  | false => exact .inl rfl
  | true => exact .inr rfl

theorem SafeReopen.reopen (hs : SafeReopen codec s db) (h : Represents codec s tables d db) (crashed : Bool)
    (heights : Nat → Height) (options : Options) :
    ∃ d' db', DB.create {} heights options (db.left crashed d) = some (d', db') ∧ db'.options = options ∧
      ∃ tables', Represents codec s.reopen tables' d' db' :=
  h.reopen (left_eq crashed d db) hs.fits hs.ordered hs.numbered heights options

theorem SafeReopen.view (hs : SafeReopen codec s db) (h : Represents codec s tables d db) (hlogged : s.Logged) :
    s.reopen.view = s.view := by
  apply hlogged.view_reopen
  intro key hkey
  apply hs.covered key
  rw [h.top.get]
  intro he
  exact hkey (Option.some.inj he)

theorem Reaches.invariant {past : List Mutation} (h : Reaches codec (Safe codec) past s d db) :
    (∃ tables, Represents codec s tables d db) ∧ s.gens.older.length < 2 ^ 31 - 1 ∧ s.Logged ∧
      s.view = Session.lastValue past := by
  induction h with
  | @create heights options d db hcreate =>
      obtain ⟨d', db', hcreate', hrep, -⟩ := Represents.create codec heights options
      obtain ⟨rfl, rfl⟩ := Prod.mk.inj (Option.some.inj (hcreate'.symm.trans hcreate))
      exact ⟨⟨[], hrep⟩, by decide, Session.Logged.empty, rfl⟩
  | @call past s d d' db db' c a _ hsafe hcall _ ih =>
      obtain ⟨⟨tables, hrep⟩, hroom, hlogged, hview⟩ := ih
      have hkeeps := hrep.call (by rw [← hrep.length_older]; exact hroom) c hsafe
      obtain ⟨-, -, htables⟩ := hkeeps.represents a d' db' hcall
      exact ⟨htables, Session.length_call hroom c, hlogged.call c, Session.view_call s c hview⟩
  | @reopen past s d d' db db' crashed heights options _ hsafe _ hcreate ih =>
      obtain ⟨⟨tables, hrep⟩, hroom, hlogged, hview⟩ := ih
      obtain ⟨d₁, db₁, hcreate', -, htables⟩ := SafeReopen.reopen hsafe hrep crashed heights options
      obtain ⟨rfl, rfl⟩ := Prod.mk.inj (Option.some.inj (hcreate'.symm.trans hcreate))
      exact ⟨htables, hroom, Session.Logged.reopen s, (SafeReopen.view hsafe hrep hlogged).trans hview⟩

/-- Nothing acknowledged is lost over any number of sessions that end safely. -/
theorem db_durable_of_safe {past : List Mutation} (h : Reaches codec (Safe codec) past s d db) :
    (∀ key, ∃ db', db.get d key = some (Session.lastValue past key, db')) ∧
      ∀ crashed heights options, SafeReopen codec s db →
        (DB.create {} heights options (db.left crashed d)).isSome := by
  obtain ⟨⟨tables, hrep⟩, -, -, hview⟩ := h.invariant
  constructor
  · intro key
    obtain ⟨cache, hget, -⟩ := hrep.get key
    exact ⟨_, by rw [hget, hview]⟩
  · intro crashed heights options hsafe
    obtain ⟨d', db', hcreate, -⟩ := hsafe.reopen hrep crashed heights options
    rw [hcreate]
    rfl

theorem exists_put (allowed : Session → DB → Event → Prop)
    (hallowed : ∀ db : DB, db.options = {} → allowed .empty db (.call (.put [1] [2] ⟨1, by decide⟩))) :
    ∃ d db tables, Reaches .source allowed [.put [1] [2]] (Session.empty.write (.put [1] [2])) d db ∧
      Represents .source (Session.empty.write (.put [1] [2])) tables d db := by
  obtain ⟨d, db, hcreate, hrep, ho⟩ := Represents.create .source (fun _ => ⟨1, by decide⟩) {}
  have hnone : Session.empty.callTables db.options (.put [1] [2] ⟨1, by decide⟩) = [] := by
    rw [ho]
    decide
  have hsession : Session.empty.call db.options (.put [1] [2] ⟨1, by decide⟩) = Session.empty.write (.put [1] [2]) := by
    show Session.empty.put db.options [1] [2] = _
    rw [ho, Session.put, if_neg (by decide)]
  have hkeeps := hrep.call (by decide) (.put [1] [2] ⟨1, by decide⟩) (by rw [hnone]; simp)
  have hbatch : (Mutation.put [1] [2]).batch .source ≠ none := by decide
  obtain ⟨⟨a, d', db'⟩, hcall⟩ := Option.isSome_iff_exists.mp (hkeeps.isSome_iff.mpr ⟨by
    intro m hm
    obtain rfl := Option.some.inj hm
    exact Option.isSome_iff_ne_none.mpr hbatch, by rw [hnone]; simp⟩)
  obtain ⟨rfl, -, tables, hrep'⟩ := hkeeps.represents _ _ _ hcall
  rw [hsession] at hrep'
  have hreach := (Reaches.create hcreate).call (hallowed db ho) hcall (by simp [Call.answer])
  rw [hsession] at hreach
  exact ⟨d', db', tables, hreach, hrep'⟩

theorem db_durable_put_crash :
    ∃ s d db, Reaches .source (Safe .source) [.put [1] [2]] s d db ∧ s.log = [] ∧
      ∃ db', db.get d [1] = some (some [2], db') := by
  obtain ⟨d, db, tables, hreach, hrep⟩ := exists_put (Safe .source) (by
    intro db ho
    show ∀ m ∈ Session.empty.callTables db.options (.put [1] [2] ⟨1, by decide⟩), Short .source m
    have hnone : Session.empty.callTables db.options (.put [1] [2] ⟨1, by decide⟩) = [] := by
      rw [ho]
      decide
    rw [hnone]
    simp)
  have hnames : db.sstFiles = [] := by
    rw [hrep.paths, List.map_eq_nil_iff, ← List.length_eq_zero_iff, ← hrep.length_older]
    rfl
  have hsafe : SafeReopen .source (Session.empty.write (.put [1] [2])) db := by
    refine ⟨?_, ?_, by simp [hnames], by simp [hnames]⟩
    · intro key hkey
      refine ⟨.put [1] [2], List.mem_singleton_self _, ?_⟩
      by_contra hne
      apply hkey
      rw [hrep.top.get]
      show some ((SortedMap.empty.insert [1] [2]).find key) = _
      have hkey' : key ≠ [1] := Ne.symm hne
      rw [SortedMap.find_insert, if_neg hkey']
      rfl
    · intro m hm
      rw [List.mem_singleton.mp hm]
      show (batchHeader ++ (Mutation.put [1] [2]).record .source).length < 65536
      decide
  obtain ⟨d', db', hcreate, -⟩ := hsafe.reopen hrep true (fun _ => ⟨1, by decide⟩) db.options
  have hreach' := hreach.reopen hsafe rfl hcreate
  exact ⟨_, d', db', hreach', rfl, (db_durable_of_safe hreach').1 [1]⟩

/-- The second reopen finds the log that the first one has emptied. -/
theorem db_put_lost_by_second_reopen : ¬ ∀ past s d db, Reaches .source (fun _ _ _ => True) past s d db →
    ∀ key, ∃ db', db.get d key = some (Session.lastValue past key, db') := by
  intro hall
  let heights : Nat → Height := fun _ => ⟨1, by decide⟩
  obtain ⟨d, db, tables, hreach, hrep⟩ := exists_put (fun _ _ _ => True) (fun _ _ => trivial)
  have hnames : db.sstFiles = [] := by
    rw [hrep.paths, List.map_eq_nil_iff, ← List.length_eq_zero_iff, ← hrep.length_older]
    rfl
  obtain ⟨d₁, db₁, hcreate₁, ho₁, tables₁, hrep₁⟩ := hrep.reopen (left_eq false d db) (by
    intro m hm
    rw [List.mem_singleton.mp hm]
    show (batchHeader ++ (Mutation.put [1] [2]).record .source).length < 65536
    decide) (by simp [hnames]) (by simp [hnames]) heights db.options
  have hnames₁ : db₁.sstFiles = [] := by
    rw [hrep₁.paths, List.map_eq_nil_iff, ← List.length_eq_zero_iff, ← hrep₁.length_older]
    rfl
  obtain ⟨d₂, db₂, hcreate₂, -, tables₂, hrep₂⟩ := hrep₁.reopen (left_eq false d₁ db₁) (by simp [Session.reopen])
    (by simp [hnames₁]) (by simp [hnames₁]) heights db₁.options
  have hreach₂ := (hreach.reopen trivial rfl hcreate₁).reopen trivial rfl hcreate₂
  obtain ⟨db', hget⟩ := hall _ _ _ _ hreach₂ [1]
  obtain ⟨cache, hget', -⟩ := hrep₂.get [1]
  have hlost : (Session.empty.write (.put [1] [2])).reopen.reopen.view [1] = none := rfl
  rw [hlost] at hget'
  have hvalue := (Prod.mk.inj (Option.some.inj (hget.symm.trans hget'))).1
  revert hvalue
  decide

end MiniStorage.Engine

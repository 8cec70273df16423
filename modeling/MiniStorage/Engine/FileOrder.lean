import MiniStorage.Engine.CrashSafety
import MiniStorage.Engine.Durability
import MiniStorage.Engine.Maintenance
import Mathlib.Data.List.Range

namespace MiniStorage.Engine

variable {codec : VarintCodec} {d d' : Disk} {db db' : DB} {names names' : List Bytes}

/-- The .sst files of a directory. -/
def Disk.sstNames (d : Disk) : List Bytes := (d.entries.map Prod.fst).filter DB.hasSstExtension

/-- The .sst files in the order in which they have appeared, when a call has changed the directory: those that are
left, and then the new one. -/
def aged (before after : Disk) (names : List Bytes) : List Bytes :=
  names.filter (· ∈ after.sstNames) ++ after.sstNames.filter (· ∉ before.sstNames)

/-- The states that calls and reopens lead to, with the files in the order in which they have appeared. Each call
starts from a state that is `allowed`. -/
inductive Dated (codec : VarintCodec) (allowed : DB → Prop) : List Bytes → Disk → DB → Prop where
  | create {heights : Nat → Height} {options : Options} {d : Disk} {db : DB} :
      DB.create {} heights options .empty = some (d, db) → Dated codec allowed [] d db
  | call {names : List Bytes} {d d' : Disk} {db db' : DB} {c : Call} {a : Answer} :
      Dated codec allowed names d db → allowed db → db.call codec d c = some (a, d', db') →
      Dated codec allowed (aged d d' names) d' db'
  | reopen {names : List Bytes} {d d' : Disk} {db db' : DB} {crashed : Bool} {heights : Nat → Height}
      {options : Options} :
      Dated codec allowed names d db → options.dbPath = db.options.dbPath →
      DB.create {} heights options (db.left crashed d) = some (d', db') → Dated codec allowed names d' db'

/-- The numbers that a call can give out are an int64_t. -/
def NumbersFit (db : DB) : Prop := db.nextSstId.toNat + 1 < 2 ^ 63

/-- What LoadSSTableList should find in a directory whose .sst files have appeared in this order. -/
structure AgeOrder (codec : VarintCodec) (options : Options) (d : Disk) (names : List Bytes) : Prop where
  files : (DB.loadSSTableList options d).1 = names.map (joinPath options.dbPath)
  next : ∀ id, d.find (sstName id) ≠ none → id < (DB.loadSSTableList options d).2
  /-- DoCompaction lets the newest version of a key win. -/
  merged : ∀ merged, DB.mergeLoop d (DB.loadSSTableList options d).1 .empty = some merged →
    ∃ gens, DB.readTables d (names.map (joinPath options.dbPath)) = some gens ∧
      ∀ key, merged.find key = Generations.lookup gens.reverse key
  /-- And so does GetFromSSTables. -/
  found : ∀ tables : List Table, tables.map (fun t => fileName t.name) = names → (∀ t ∈ tables, Intact codec d t) →
    ∀ db : DB, db.Loaded d → db.options = options → ∀ key, (db.getFromSSTables d key).map Prod.fst =
      some ((Generations.lookup (tables.map Table.kvs).reverse key).filter fun v => !isTombstone v)

/-- Two files whose numbers lie on different sides of a power of ten. -/
def Disk.Straddles (d : Disk) (w : Nat) : Prop :=
  ∃ a b : UInt64, d.find (sstName a) ≠ none ∧ d.find (sstName b) ≠ none ∧ a.toNat < 10 ^ w ∧ 10 ^ w ≤ b.toNat

theorem mem_sstNames {name : Bytes} : name ∈ d.sstNames ↔ d.find name ≠ none ∧ DB.hasSstExtension name = true := by
  rw [Disk.sstNames, List.mem_filter, mem_names]

theorem nodup_disk (d : Disk) : d.sstNames.Nodup := by
  have hkeys : (d.entries.map Prod.fst).Pairwise (· < ·) := d.ascending.map Prod.fst (fun _ _ h => h)
  exact (hkeys.filter _).imp ne_of_lt

/-- Where all the old files are left or none, and at most one is new, the new one comes last. -/
theorem aged_eq {kept new : List Bytes} (hd : d.sstNames.Perm names) (hd' : d'.sstNames.Perm (kept ++ new))
    (hkept : kept = names ∨ kept = []) (hnew : new.length ≤ 1) (hfresh : ∀ name ∈ new, name ∉ names) :
    aged d d' names = kept ++ new := by
  have hsub : kept ⊆ names := by
    rcases hkept with rfl | rfl
    · exact List.Subset.refl _
    · exact List.nil_subset _
  have hold : names.filter (· ∈ d'.sstNames) = kept := by
    have hmem {name : Bytes} (hn : name ∈ names) : name ∈ d'.sstNames ↔ name ∈ kept := by
      rw [hd'.mem_iff, List.mem_append, or_iff_left fun h => hfresh name h hn]
    rcases hkept with rfl | rfl
    · exact List.filter_eq_self.mpr fun name hn => decide_eq_true ((hmem hn).mpr hn)
    · refine List.filter_eq_nil_iff.mpr fun name hn h => ?_
      exact absurd ((hmem hn).mp (of_decide_eq_true h)) List.not_mem_nil
  have hlast : d'.sstNames.filter (· ∉ d.sstNames) = new := by
    have hperm := hd'.filter (· ∉ d.sstNames)
    have hgone : kept.filter (· ∉ d.sstNames) = [] := by
      refine List.filter_eq_nil_iff.mpr fun name hn h => of_decide_eq_true h ?_
      exact hd.mem_iff.mpr (hsub hn)
    have hall : new.filter (· ∉ d.sstNames) = new :=
      List.filter_eq_self.mpr fun name hn => decide_eq_true fun h => hfresh name hn (hd.mem_iff.mp h)
    rw [List.filter_append, hgone, hall, List.nil_append] at hperm
    match new, hnew, hperm with
    | [], _, hperm => exact List.perm_nil.mp hperm
    | [name], _, hperm => exact List.perm_singleton.mp hperm
  rw [aged, hold, hlast]

/-- The names of `n` files from the number `first` on. -/
def sstRange (first n : Nat) : List Bytes := (List.range' first n).map fun i => sstName (UInt64.ofNat i)

theorem sstName_ofNat_inj {i j : Nat} (hi : i < 2 ^ 63) (hj : j < 2 ^ 63)
    (h : sstName (UInt64.ofNat i) = sstName (UInt64.ofNat j)) : i = j := by
  have hnat := congrArg UInt64.toNat (sstName_inj h)
  rwa [UInt64.toNat_ofNat', UInt64.toNat_ofNat', Nat.mod_eq_of_lt (by omega), Nat.mod_eq_of_lt (by omega)] at hnat

theorem sstRange_succ (first n : Nat) :
    sstRange first (n + 1) = sstRange first n ++ [sstName (UInt64.ofNat (first + n))] := by
  rw [sstRange, List.range'_1_concat, List.map_append]
  rfl

theorem mem_sstRange {first n : Nat} {name : Bytes} :
    name ∈ sstRange first n ↔ ∃ i, first ≤ i ∧ i < first + n ∧ name = sstName (UInt64.ofNat i) := by
  simp only [sstRange, List.mem_map, List.mem_range'_1, and_assoc, eq_comm]

theorem nodup_sstRange {first n : Nat} (h : first + n ≤ 2 ^ 63) : (sstRange first n).Nodup := by
  refine List.Nodup.map_on ?_ List.nodup_range'
  intro i hi j hj
  rw [List.mem_range'_1] at hi hj
  exact sstName_ofNat_inj (by omega) (by omega)

/-- The files of a directory and of the list are numbered without a gap, and next_sst_id_ comes behind them. -/
structure Numbered (first n : Nat) (d : Disk) (db : DB) : Prop where
  next : db.nextSstId.toNat = first + n
  listed : (db.sstFiles.map fileName).Perm (sstRange first n)
  stored : ∀ name, name ∈ d.sstNames ↔ name ∈ sstRange first n
  fit : first + n ≤ 2 ^ 63

namespace Numbered

variable {first n : Nat}

theorem perm (h : Numbered first n d db) : d.sstNames.Perm (sstRange first n) :=
  (List.perm_ext_iff_of_nodup (nodup_disk d) (nodup_sstRange h.fit)).mpr h.stored

theorem length (h : Numbered first n d db) : db.sstFiles.length = n := by
  have hlen := h.listed.length_eq
  rwa [List.length_map, sstRange, List.length_map, List.length_range'] at hlen

theorem next_notMem (h : Numbered first n d db) (hlt : first + n < 2 ^ 63) :
    sstName db.nextSstId ∉ sstRange first n := by
  intro hmem
  obtain ⟨i, -, hi, he⟩ := mem_sstRange.mp hmem
  have hnat := congrArg UInt64.toNat (sstName_inj he)
  rw [h.next, UInt64.toNat_ofNat', Nat.mod_eq_of_lt (by omega)] at hnat
  omega

theorem nextName (h : Numbered first n d db) : sstName db.nextSstId = sstName (UInt64.ofNat (first + n)) := by
  rw [← h.next, UInt64.ofNat_toNat]

theorem congr (h : Numbered first n d db) (hfiles : db'.sstFiles = db.sstFiles) (hnext : db'.nextSstId = db.nextSstId)
    (hd : ∀ name, DB.hasSstExtension name = true → (d'.find name ≠ none ↔ d.find name ≠ none)) :
    Numbered first n d' db' where
  next := by rw [hnext, h.next]
  listed := by rw [hfiles]; exact h.listed
  stored name := by
    rw [← h.stored, mem_sstNames, mem_sstNames]
    exact and_congr_left fun hext => hd name hext
  fit := h.fit

theorem next_succ (h : Numbered first n d db) (hlt : first + n < 2 ^ 63) :
    (db.nextSstId + 1).toNat = first + (n + 1) := by
  have hsum : (db.nextSstId + 1).toNat = (db.nextSstId.toNat + 1) % 2 ^ 64 := UInt64.toNat_add _ _
  rw [hsum, h.next, Nat.mod_eq_of_lt (by omega), Nat.add_assoc]

theorem grow (h : Numbered first n d db) (hlt : first + n < 2 ^ 63)
    (hfiles : db'.sstFiles = db.sstFiles ++ [db.nextPath]) (hnext : db'.nextSstId = db.nextSstId + 1)
    (hd : ∀ name, DB.hasSstExtension name = true →
      (d'.find name ≠ none ↔ name = sstName db.nextSstId ∨ d.find name ≠ none)) : Numbered first (n + 1) d' db' where
  next := by rw [hnext, h.next_succ hlt]
  listed := by
    rw [hfiles, List.map_append, sstRange_succ, ← h.nextName, ← fileName_nextPath]
    exact h.listed.append_right _
  stored name := by
    rw [sstRange_succ, ← h.nextName, List.mem_append, List.mem_singleton, ← h.stored, mem_sstNames, mem_sstNames,
      or_comm]
    constructor
    · rintro ⟨hfind, hext⟩
      rcases (hd name hext).mp hfind with rfl | hold
      · exact .inl rfl
      · exact .inr ⟨hold, hext⟩
    · rintro (rfl | ⟨hold, hext⟩)
      · exact ⟨(hd _ (hasSstExtension_sstName _)).mpr (.inl rfl), hasSstExtension_sstName _⟩
      · exact ⟨(hd name hext).mpr (.inr hold), hext⟩
  fit := hlt

theorem doCompaction (h : Numbered first n d db) (hlt : first + n < 2 ^ 63)
    (hcall : db.doCompaction codec {} d = some (d', db')) :
    n ≤ 1 ∧ Numbered first n d' db' ∨ 1 < n ∧ Numbered (first + n) 1 d' db' := by
  rcases doCompaction_cases hcall with ⟨hle, rfl, rfl⟩ | ⟨hmany, merged, file, cache, -, -, rfl, rfl⟩
  · exact .inl ⟨h.length ▸ hle, h⟩
  · have hone : sstRange (first + n) 1 = [sstName db.nextSstId] := by rw [h.nextName]; rfl
    have hlisted (name : Bytes) : (∃ q ∈ db.sstFiles, name = fileName q) ↔ name ∈ sstRange first n := by
      rw [← h.listed.mem_iff, List.mem_map]
      exact exists_congr fun q => and_congr_right' eq_comm
    refine .inr ⟨h.length ▸ hmany, h.next_succ hlt, ?_, fun name => ?_, hlt⟩
    · rw [hone, List.map_singleton, fileName_nextPath]
    · rw [hone, List.mem_singleton, mem_sstNames, Disk.find_removes]
      constructor
      · rintro ⟨hfind, hext⟩
        by_cases hold : ∃ q ∈ db.sstFiles, name = fileName q
        · rw [if_pos hold] at hfind
          exact absurd rfl hfind
        · by_contra hne
          rw [if_neg hold, Disk.create, if_pos rfl, Disk.find_store, fileName_nextPath, if_neg hne] at hfind
          exact hold ((hlisted name).mpr ((h.stored name).mp (mem_sstNames.mpr ⟨hfind, hext⟩)))
      · rintro rfl
        rw [if_neg fun hold => h.next_notMem hlt ((hlisted _).mp hold), Disk.create, if_pos rfl, Disk.find_store,
          fileName_nextPath, if_pos rfl]
        exact ⟨Option.some_ne_none _, hasSstExtension_sstName _⟩

/-- What a call does to the files. -/
inductive Effect (first n : Nat) : Nat → Nat → Prop where
  | keep : Effect first n first n
  | grow : Effect first n first (n + 1)
  | merge : 1 < n → Effect first n (first + n) 1
  | growMerge : 0 < n → Effect first n (first + (n + 1)) 1

/-- After each of them the files are in the order of their numbers. -/
theorem aged_eq {first' n' : Nat} (h : Numbered first n d db) (h' : Numbered first' n' d' db')
    (he : Effect first n first' n') :
    aged d d' (sstRange first n) = sstRange first' n' := by
  have hone (k : Nat) : sstRange k 1 = [] ++ [sstName (UInt64.ofNat k)] := rfl
  have hfresh {k : Nat} (hk : first + n ≤ k) (hfit : k < 2 ^ 63) :
      ∀ name ∈ [sstName (UInt64.ofNat k)], name ∉ sstRange first n := by
    intro name hname hmem
    obtain ⟨i, -, hi, hi'⟩ := mem_sstRange.mp hmem
    rw [List.mem_singleton.mp hname] at hi'
    have := sstName_ofNat_inj hfit (by omega) hi'
    omega
  have hperm := h'.perm
  have hfit := h'.fit
  cases he with
  | keep =>
      rw [← List.append_nil (sstRange first n)] at hperm ⊢
      exact Engine.aged_eq (by rw [List.append_nil]; exact h.perm) hperm (.inl (by rw [List.append_nil])) (by simp)
        (by simp)
  | grow =>
      rw [sstRange_succ] at hperm ⊢
      exact Engine.aged_eq h.perm hperm (.inl rfl) le_rfl (hfresh le_rfl (by omega))
  | merge hmany =>
      rw [hone] at hperm ⊢
      exact Engine.aged_eq h.perm hperm (.inr rfl) le_rfl (hfresh le_rfl (by omega))
  | growMerge hpos =>
      rw [hone] at hperm ⊢
      exact Engine.aged_eq h.perm hperm (.inr rfl) le_rfl (hfresh (by omega) (by omega))

theorem flush (h : Numbered first n d db) (hlt : first + (n + 1) < 2 ^ 63) (hroom : n < 2 ^ 31 - 1)
    (hcall : db.flushMemTable codec {} d = some (d', db')) :
    ∃ first' n', Effect first n first' n' ∧ Numbered first' n' d' db' ∧ n' < 2 ^ 31 - 1 := by
  rcases flushMemTable_cases hcall with ⟨rfl, rfl⟩ | ⟨bytes, memTable, hcall⟩
  · exact ⟨first, n, .keep, h, hroom⟩
  · have hmax := db.options.maxSstableCount.toInt_lt
    have hgrow : Numbered first (n + 1)
        (((d.store db.nextPath bytes).remove (DB.generateLogFilename db.options)).store
          (DB.generateLogFilename db.options) [])
        { db with
          nextSstId := db.nextSstId + 1
          memTable := memTable
          logWrite := LogWriter.create true none
          sstFiles := db.sstFiles ++ [db.nextPath] } := by
      refine h.grow (by omega) rfl rfl fun name hext => ?_
      have hlog : name ≠ logName := by
        rintro rfl
        exact absurd hext (by decide)
      rw [Disk.find_store, fileName_log, if_neg hlog, Disk.find_remove, fileName_log, if_neg hlog, Disk.find_store,
        fileName_nextPath]
      by_cases hn : name = sstName db.nextSstId
      · simp [hn]
      · simp [hn]
    have hlen := hgrow.length
    rw [DB.maybeScheduleCompaction, hlen, SSTableBuilder.toInt_of_lt (by omega)] at hcall
    split at hcall
    · rcases hgrow.doCompaction hlt hcall with ⟨hle, hsame⟩ | ⟨hmany, hmerged⟩
      · exact ⟨first, n + 1, .grow, hsame, by omega⟩
      · exact ⟨first + (n + 1), 1, .growMerge (by omega), hmerged, by decide⟩
    · next hfew =>
      obtain ⟨rfl, rfl⟩ := Prod.mk.inj (Option.some.inj hcall)
      exact ⟨first, n + 1, .grow, hgrow, by dsimp only at hfew; omega⟩

theorem call (h : Numbered first n d db) (hlt : NumbersFit db) (hroom : n < 2 ^ 31 - 1) {c : Call} {a : Answer}
    (hcall : db.call codec d c = some (a, d', db')) :
    ∃ first' n', Effect first n first' n' ∧ Numbered first' n' d' db' ∧ n' < 2 ^ 31 - 1 := by
  rw [NumbersFit, h.next, Nat.add_assoc] at hlt
  cases DB.Effect.of_call hcall with
  | keep hsame => exact ⟨first, n, .keep, h.congr hsame.sstFiles hsame.nextSstId fun _ _ => Iff.rfl, hroom⟩
  | ask hloop => exact ⟨first, n, .keep, h.congr rfl rfl fun _ _ => Iff.rfl, hroom⟩
  | flush hsame hflush =>
      have h₁ : Numbered first n d _ := h.congr hsame.sstFiles hsame.nextSstId fun _ _ => Iff.rfl
      exact h₁.flush hlt hroom hflush
  | compact hcompact =>
      rcases h.doCompaction (by omega) hcompact with ⟨-, hsame⟩ | ⟨hmany, hmerged⟩
      · exact ⟨first, n, .keep, hsame, hroom⟩
      · exact ⟨first + n, 1, .merge hmany, hmerged, by decide⟩

end Numbered

theorem foldl_nextIdAfter_le {paths : List Bytes}
    (hp : ∀ f ∈ paths, ∃ id : UInt64, fileName f = sstName id ∧ id.toNat < 2 ^ 63) (next : UInt64) (m : Nat) :
    (paths.foldl DB.nextIdAfter next).toNat ≤ m ↔
      next.toNat ≤ m ∧ ∀ f ∈ paths, ∀ id : UInt64, fileName f = sstName id → id.toNat + 1 ≤ m := by
  induction paths generalizing next with
  | nil => simp
  | cons f paths ih =>
      obtain ⟨⟨id, hid, hfit⟩, hrest⟩ := List.forall_mem_cons.mp hp
      have hnext : (DB.nextIdAfter next f).toNat ≤ m ↔ next.toNat ≤ m ∧ id.toNat + 1 ≤ m := by
        rw [nextIdAfter_eq hid (by rw [hid, stoll_sstName, if_pos hfit]; rfl)]
        split
        · next hge =>
          have hle := UInt64.le_iff_toNat_le.mp hge
          have hsum : (id + 1).toNat = (id.toNat + 1) % 2 ^ 64 := UInt64.toNat_add _ _
          rw [hsum, Nat.mod_eq_of_lt (by omega)]
          omega
        · next hlt =>
          have hlt' := UInt64.lt_iff_toNat_lt.mp (UInt64.not_le.mp hlt)
          omega
      rw [List.foldl_cons, ih hrest, hnext, List.forall_mem_cons, and_assoc]
      refine and_congr_right fun _ => and_congr_left fun _ => ⟨fun h id' hid' => ?_, fun h => h id hid⟩
      rwa [sstName_inj (hid'.symm.trans hid)]

section Load

variable {first n : Nat} (hstored : ∀ name, name ∈ d.sstNames ↔ name ∈ sstRange first n) (hfit : first + n ≤ 2 ^ 63)
  (options : Options)

include hstored hfit

theorem load_perm : ((DB.loadSSTableList options d).1.map fileName).Perm (sstRange first n) := by
  have hnames : (d.sstNames.map (joinPath options.dbPath)).map fileName = d.sstNames := by
    rw [List.map_map]
    conv_rhs => rw [← List.map_id d.sstNames]
    refine List.map_congr_left fun name hname => ?_
    obtain ⟨i, -, -, rfl⟩ := mem_sstRange.mp ((hstored name).mp hname)
    exact fileName_joinPath _ (slash_notMem_sstName _)
  have hsort : (DB.loadSSTableList options d).1.Perm (d.sstNames.map (joinPath options.dbPath)) :=
    List.mergeSort_perm _ _
  have hperm := hsort.map fileName
  rw [hnames] at hperm
  exact hperm.trans ((List.perm_ext_iff_of_nodup (nodup_disk d) (nodup_sstRange hfit)).mpr hstored)

theorem load_next : (DB.loadSSTableList options d).2.toNat = if n = 0 then 1 else first + n := by
  have hperm := load_perm hstored hfit options
  have hname {f : Bytes} (hf : f ∈ (DB.loadSSTableList options d).1) :
      ∃ i, first ≤ i ∧ i < first + n ∧ fileName f = sstName (UInt64.ofNat i) :=
    mem_sstRange.mp (hperm.mem_iff.mp (List.mem_map_of_mem hf))
  have hnat {i : Nat} (hi : i < first + n) : (UInt64.ofNat i).toNat = i := by
    rw [UInt64.toNat_ofNat', Nat.mod_eq_of_lt (by omega)]
  have hle (m : Nat) : (DB.loadSSTableList options d).2.toNat ≤ m ↔ (if n = 0 then 1 else first + n) ≤ m := by
    refine (foldl_nextIdAfter_le (fun f hf => ?_) 1 m).trans ?_
    · obtain ⟨i, -, hi, he⟩ := hname hf
      exact ⟨_, he, by rw [hnat hi]; omega⟩
    · have hone : (1 : UInt64).toNat = 1 := rfl
      rw [hone]
      constructor
      · rintro ⟨hpos, hall⟩
        split
        · exact hpos
        · have hlast : sstName (UInt64.ofNat (first + n - 1)) ∈ sstRange first n :=
            mem_sstRange.mpr ⟨first + n - 1, by omega, by omega, rfl⟩
          obtain ⟨f, hf, he⟩ := List.mem_map.mp (hperm.mem_iff.mpr hlast)
          have hm := hall f hf _ he
          rw [hnat (by omega)] at hm
          omega
      · intro hm
        refine ⟨by split at hm <;> omega, fun f hf id hid => ?_⟩
        obtain ⟨i, hfirst, hi, he⟩ := hname hf
        rw [← sstName_inj (he.symm.trans hid), hnat hi]
        split at hm <;> omega
  exact le_antisymm ((hle _).mpr le_rfl) ((hle _).mp le_rfl)

theorem load_names_lt {id : UInt64} (hfind : d.find (sstName id) ≠ none) : id < (DB.loadSSTableList options d).2 := by
  have hmem := (hstored _).mp (mem_sstNames.mpr ⟨hfind, hasSstExtension_sstName id⟩)
  obtain ⟨i, hfirst, hi, he⟩ := mem_sstRange.mp hmem
  rw [UInt64.lt_iff_toNat_lt, load_next hstored hfit, if_neg (by omega), sstName_inj he, UInt64.toNat_ofNat',
    Nat.mod_eq_of_lt (by omega)]
  exact hi

theorem mem_range_of_find {id : UInt64} (hfind : d.find (sstName id) ≠ none) :
    first ≤ id.toNat ∧ id.toNat < first + n := by
  have hmem := (hstored _).mp (mem_sstNames.mpr ⟨hfind, hasSstExtension_sstName id⟩)
  obtain ⟨i, hfirst, hi, he⟩ := mem_sstRange.mp hmem
  rw [sstName_inj he, UInt64.toNat_ofNat', Nat.mod_eq_of_lt (by omega)]
  exact ⟨hfirst, hi⟩

/-- Two names of the directory are in the order of their numbers, unless a power of ten lies between them. -/
theorem pairwise_sstRange (h : ∀ w, 6 ≤ w → ¬ d.Straddles w) : (sstRange first n).Pairwise (· < ·) := by
  rw [sstRange, List.pairwise_map]
  refine List.Pairwise.imp_of_mem (fun {i j} hi hj hlt => ?_) (List.pairwise_lt_range' 1)
  rw [List.mem_range'_1] at hi hj
  have hnat {i : Nat} (hi : i < first + n) : (UInt64.ofNat i).toNat = i := by
    rw [UInt64.toNat_ofNat', Nat.mod_eq_of_lt (by omega)]
  have hfind {i : Nat} (hi : first ≤ i ∧ i < first + n) : d.find (sstName (UInt64.ofNat i)) ≠ none :=
    (mem_sstNames.mp ((hstored _).mpr (mem_sstRange.mpr ⟨i, hi.1, hi.2, rfl⟩))).1
  have hlen : (Decimal.encodePadded 6 i).length = (Decimal.encodePadded 6 j).length := by
    by_contra hne
    obtain ⟨k, hk, hik, hkj⟩ := Decimal.exists_pow_between (by decide) hlt hne
    exact h k hk ⟨_, _, hfind hi, hfind hj, by rwa [hnat hi.2], by rwa [hnat hj.2]⟩
  rw [sstName, sstName, hnat hi.2, hnat hj.2]
  apply Decimal.append_lt_append hlen
  apply Decimal.lt_of_decode_lt (fun _ => Decimal.mem_encodePadded) (fun _ => Decimal.mem_encodePadded) hlen
  rwa [Decimal.decode_encodePadded, Decimal.decode_encodePadded]

/-- The sorted list has the two files around the power of ten the wrong way round. -/
theorem not_straddles (hfiles : (DB.loadSSTableList options d).1 = (sstRange first n).map (joinPath options.dbPath))
    {w : Nat} (hw : 6 ≤ w) : ¬ d.Straddles w := by
  rintro ⟨a, b, ha, hb, haw, hwb⟩
  have ha' := mem_range_of_find hstored hfit ha
  have hb' := mem_range_of_find hstored hfit hb
  have hpos : 0 < 10 ^ w := Nat.pow_pos (by decide)
  have hsorted : (DB.loadSSTableList options d).1.Pairwise fun a b => decide (a ≤ b) = true :=
    List.pairwise_mergeSort (fun a b c hab hbc => decide_eq_true ((of_decide_eq_true hab).trans (of_decide_eq_true hbc)))
      (fun a b => by rcases le_total a b with h | h <;> simp [h]) _
  rw [hfiles, sstRange, List.pairwise_map, List.pairwise_map, List.pairwise_iff_getElem] at hsorted
  have hle := hsorted (10 ^ w - 1 - first) (10 ^ w - first) (by rw [List.length_range']; omega)
    (by rw [List.length_range']; omega) (by omega)
  have hlo : first + 1 * (10 ^ w - 1 - first) = 10 ^ w - 1 := by omega
  have hhi : first + 1 * (10 ^ w - first) = 10 ^ w := by omega
  rw [List.getElem_range', List.getElem_range', hlo, hhi] at hle
  have hname (i : Nat) (hi : i < 2 ^ 63) : sstName (UInt64.ofNat i) = Decimal.encodePadded 6 i ++ sstExtension := by
    rw [sstName, UInt64.toNat_ofNat', Nat.mod_eq_of_lt (by omega)]
  have hlt : sstName (UInt64.ofNat (10 ^ w)) < sstName (UInt64.ofNat (10 ^ w - 1)) := by
    rw [hname _ (by omega), hname _ (by omega)]
    exact Decimal.encodePadded_pow_lt (by decide) hw _ _
  exact absurd (joinPath_lt options.dbPath hlt) (not_lt_of_ge (of_decide_eq_true hle))

theorem ageOrder_iff (hfew : n < 2 ^ 31) :
    AgeOrder codec options d (sstRange first n) ↔ ∀ w, 6 ≤ w → ¬ d.Straddles w := by
  constructor
  · intro h w hw
    exact not_straddles hstored hfit options h.files hw
  · intro h
    have hfiles : (DB.loadSSTableList options d).1 = (sstRange first n).map (joinPath options.dbPath) :=
      loadSSTableList_eq options (pairwise_sstRange hstored hfit h) fun name =>
        (hstored name).symm.trans mem_sstNames
    refine ⟨hfiles, fun id hid => load_names_lt hstored hfit options hid, fun merged hmerged => ?_, ?_⟩
    · rw [mergeLoop_eq_merge, hfiles] at hmerged
      obtain ⟨gens, hgens, rfl⟩ := Option.map_eq_some_iff.mp hmerged
      exact ⟨gens, hgens, Generations.find_merge gens⟩
    · rintro tables hnames hintact db hloaded rfl key
      have hname {t : Table} (ht : t ∈ tables) : fileName (t.moved db.options.dbPath).name = fileName t.name := by
        have hmem : fileName t.name ∈ sstRange first n := by
          rw [← hnames]
          exact List.mem_map_of_mem (f := fun t => fileName t.name) ht
        obtain ⟨i, -, -, hi⟩ := mem_sstRange.mp hmem
        rw [Table.moved, hi]
        exact fileName_joinPath _ (slash_notMem_sstName _)
      have hpaths : db.sstFiles = (tables.map (Table.moved db.options.dbPath)).map Table.name := by
        rw [hloaded.files, hfiles, ← hnames, List.map_map, List.map_map]
        rfl
      have hlen : tables.length = n := by
        have hlen := congrArg List.length hnames
        rwa [List.length_map, sstRange, List.length_map, List.length_range'] at hlen
      have hdistinct : Distinct (tables.map (Table.moved db.options.dbPath)) := by
        intro t ht u hu he
        obtain ⟨t, ht', rfl⟩ := List.mem_map.mp ht
        obtain ⟨u, hu', rfl⟩ := List.mem_map.mp hu
        have hsame := congrArg fileName he
        rw [hname ht', hname hu'] at hsame
        have hnodup : (tables.map fun t => fileName t.name).Nodup := by
          rw [hnames]
          exact nodup_sstRange hfit
        rw [List.inj_on_of_nodup_map hnodup ht' hu' hsame]
      have hmoved : ∀ t ∈ tables.map (Table.moved db.options.dbPath), Intact codec d t := by
        intro u hu
        obtain ⟨t, ht, rfl⟩ := List.mem_map.mp hu
        obtain ⟨bytes, f, hread, htable⟩ := hintact t ht
        refine ⟨bytes, f, ?_, htable⟩
        rw [Disk.read, hname ht]
        exact hread
      obtain ⟨cache, hget, -⟩ := getFromSSTables_eq hpaths (by rw [List.length_map, hlen]; exact hfew) hdistinct hmoved
        (hloaded.cached.mono (List.nil_subset _)) key
      rw [hget, List.map_map]
      rfl

end Load

theorem find_left (crashed : Bool) {name : Bytes} (hext : DB.hasSstExtension name = true) :
    (db.left crashed d).find name = d.find name := by
  have hlog : name ≠ logName := by
    rintro rfl
    exact absurd hext (by decide)
  have hleave (bytes : Bytes) : (DB.leave d db bytes).find name = d.find name := by
    rw [DB.leave]
    split
    · rfl
    · rw [Disk.find_store, fileName_log, if_neg hlog]
  cases crashed with
  | false => exact hleave _
  | true => exact hleave _

theorem mem_sstNames_left (crashed : Bool) (name : Bytes) :
    name ∈ (db.left crashed d).sstNames ↔ name ∈ d.sstNames := by
  rw [mem_sstNames, mem_sstNames]
  exact and_congr_left fun hext => by rw [find_left crashed hext]

theorem sstRange_restart (first n : Nat) : sstRange (if n = 0 then 1 else first) n = sstRange first n := by
  split
  · next hzero => rw [hzero]; rfl
  · rfl

theorem numbered_empty (name : Bytes) : name ∈ Disk.sstNames .empty ↔ name ∈ sstRange 1 0 := Iff.rfl

theorem Numbered.of_create {first n : Nat} (hstored : ∀ name, name ∈ d.sstNames ↔ name ∈ sstRange first n)
    (hfit : first + n ≤ 2 ^ 63) {heights : Nat → Height} {options : Options}
    (hcreate : DB.create {} heights options d = some (d', db')) :
    Numbered (if n = 0 then 1 else first) n d' db' := by
  have hperm := load_perm hstored hfit options
  have hnext := load_next hstored hfit options
  obtain ⟨⟨memTable, i⟩, -, hcreate⟩ := Option.bind_eq_some_iff.mp hcreate
  obtain ⟨rfl, rfl⟩ := Prod.mk.inj (Option.some.inj hcreate)
  have hrange := sstRange_restart first n
  refine ⟨?_, ?_, fun name => ?_, ?_⟩
  · refine hnext.trans ?_
    split
    · next hzero => rw [hzero]
    · rfl
  · rw [hrange]
    exact hperm
  · have hlog (hext : DB.hasSstExtension name = true) : name ≠ logName := by
      rintro rfl
      exact absurd hext (by decide)
    rw [hrange, ← hstored, mem_sstNames, mem_sstNames]
    refine and_congr_left fun hext => ?_
    rw [Disk.create, if_pos rfl, Disk.find_store, fileName_log, if_neg (hlog hext)]
  · split <;> omega

theorem Dated.numbered (h : Dated codec NumbersFit names d db) :
    ∃ first n, names = sstRange first n ∧ Numbered first n d db ∧ n < 2 ^ 31 - 1 := by
  induction h with
  | create hcreate =>
      exact ⟨1, 0, rfl, Numbered.of_create numbered_empty (by decide) hcreate, by decide⟩
  | call _ hallowed hcall ih =>
      obtain ⟨first, n, rfl, hnum, hroom⟩ := ih
      obtain ⟨first', n', heffect, hnum', hroom'⟩ := hnum.call hallowed hroom hcall
      exact ⟨first', n', hnum.aged_eq hnum' heffect, hnum', hroom'⟩
  | @reopen names d d' db db' crashed heights options _ _ hcreate ih =>
      obtain ⟨first, n, rfl, hnum, hroom⟩ := ih
      have hstored (name : Bytes) := (@mem_sstNames_left d db crashed name).trans (hnum.stored name)
      exact ⟨_, n, (sstRange_restart first n).symm, Numbered.of_create hstored hnum.fit hcreate, hroom⟩

/-- In every run that stays within an int64_t, the list of files is put together in the order in which they were made,
and their numbers are all below the next one, exactly if no power of ten from a million on lies between two of them. -/
theorem sst_age_order_iff (h : Dated codec NumbersFit names d db) (crashed : Bool) (options : Options) :
    AgeOrder codec options (db.left crashed d) names ↔ ∀ w, 6 ≤ w → ¬ d.Straddles w := by
  obtain ⟨first, n, rfl, hnum, hroom⟩ := h.numbered
  have hstored (name : Bytes) : name ∈ (db.left crashed d).sstNames ↔ name ∈ sstRange first n :=
    (mem_sstNames_left crashed name).trans (hnum.stored name)
  rw [ageOrder_iff hstored hnum.fit options (by omega)]
  simp only [Disk.Straddles, find_left crashed (hasSstExtension_sstName _)]

/-- A run with files numbered from `first` on, for a session on the default options. -/
def Reached (s : Session) (first n : Nat) : Prop :=
  ∃ names d db tables, Dated .source NumbersFit names d db ∧ Represents .source s tables d db ∧ db.options = {} ∧
    Numbered first n d db

theorem Reached.length {s : Session} {first n : Nat} (h : Reached s first n) : n = s.gens.older.length := by
  obtain ⟨names, d, db, tables, -, hrep, -, hnum⟩ := h
  rw [hrep.length_older, ← hnum.length, hrep.paths, List.length_map]

theorem Reached.create : Reached ⟨⟨.empty, []⟩, []⟩ 1 0 := by
  obtain ⟨d, db, hcreate, hrep, ho⟩ := Represents.create .source (fun _ => ⟨1, by decide⟩) {}
  exact ⟨[], d, db, [], .create hcreate, hrep, ho,
    Numbered.of_create numbered_empty (by decide) hcreate⟩

theorem Reached.call {s : Session} {first n : Nat} (h : Reached s first n) (hfit : first + n + 1 < 2 ^ 63)
    (hfew : n < 2 ^ 31 - 1) (c : Call) (hbatch : ∀ m, c.mutation = some m → (m.batch .source).isSome)
    (htables : ((s.callTables {} c).all fun m =>
      (SSTableBuilder.build .source m.entries).any fun file => decide (file.length < 2 ^ 32)) = true)
    {P : Nat → Nat → Prop} (heffect : ∀ d db d' db' a, Numbered first n d db → db.call .source d c = some (a, d', db') →
      ∃ first' n', P first' n' ∧ Numbered first' n' d' db') :
    ∃ first' n', P first' n' ∧ Reached (s.call {} c) first' n' := by
  obtain ⟨names, d, db, tables, hdated, hrep, ho, hnum⟩ := h
  have hlen : tables.length = n := by rw [← hnum.length, hrep.paths, List.length_map]
  have hnumbers : NumbersFit db := by rwa [NumbersFit, hnum.next]
  have hbuild (m : SortedMap Bytes Bytes) (hm : m ∈ s.callTables db.options c) :
      ∃ file, SSTableBuilder.build .source m.entries = some file ∧ file.length < 2 ^ 32 := by
    rw [ho] at hm
    obtain ⟨file, hfile, hlt⟩ := Option.any_eq_true _ _ |>.mp (List.all_eq_true.mp htables m hm)
    exact ⟨file, hfile, of_decide_eq_true hlt⟩
  have hkeeps := hrep.call (by omega) c fun m hm file hfile => by
    obtain ⟨file', hfile', hlt⟩ := hbuild m hm
    rwa [Option.some.inj (hfile.symm.trans hfile')]
  have hsome : (db.call .source d c).isSome := hkeeps.isSome_iff.mpr ⟨hbatch, fun m hm => by
    obtain ⟨file, hfile, -⟩ := hbuild m hm
    rw [hfile]
    rfl⟩
  obtain ⟨⟨a, d', db'⟩, hcall⟩ := Option.isSome_iff_exists.mp hsome
  obtain ⟨-, ho', tables', hrep'⟩ := hkeeps.represents a d' db' hcall
  obtain ⟨first', n', hP, hnum'⟩ := heffect d db d' db' a hnum hcall
  rw [ho] at ho' hrep'
  exact ⟨first', n', hP, _, d', db', tables', hdated.call hnumbers hcall, hrep', ho', hnum'⟩

/-- A tombstone for one key. -/
def gone : SortedMap Bytes Bytes := SortedMap.empty.insert [1] []

theorem gone_fits : ([gone].all fun m =>
    (SSTableBuilder.build .source m.entries).any fun file => decide (file.length < 2 ^ 32)) = true := by decide +kernel

theorem empty_fits : ([SortedMap.empty].all fun m : SortedMap Bytes Bytes =>
    (SSTableBuilder.build .source m.entries).any fun file => decide (file.length < 2 ^ 32)) = true := by decide +kernel

theorem flush_gone {older : List (SortedMap Bytes Bytes)} (h : older.length < 2) :
    Session.callTables {} ⟨⟨gone, older⟩, [.delete [1]]⟩ .flushMemTable = [gone] ∧
      Session.call {} ⟨⟨gone, older⟩, [.delete [1]]⟩ .flushMemTable = ⟨⟨.empty, older ++ [gone]⟩, []⟩ := by
  cases older with
  | nil => exact ⟨rfl, rfl⟩
  | cons g rest =>
      cases rest with
      | nil => exact ⟨rfl, rfl⟩
      | cons g' rest => exact absurd h (by simp)

theorem Reached.deleteFlush {older : List (SortedMap Bytes Bytes)} {first n : Nat}
    (h : Reached ⟨⟨.empty, older⟩, []⟩ first n) (hfit : first + n + 1 < 2 ^ 63) (hfew : n < 2) :
    Reached ⟨⟨.empty, older ++ [gone]⟩, []⟩ first (n + 1) := by
  have hlen := h.length
  obtain ⟨first₁, n₁, ⟨rfl, rfl⟩, h₁⟩ := h.call hfit (by omega) (.delete [1] ⟨1, by decide⟩)
    (P := fun i j => i = first ∧ j = n) (fun m hm => by
      obtain rfl := Option.some.inj hm
      decide) rfl fun d db d' db' a hnum hcall => by
        obtain ⟨⟨ok, r⟩, hdelete, he⟩ := Option.map_eq_some_iff.mp hcall
        obtain ⟨-, rfl⟩ := Prod.mk.inj he
        obtain ⟨hd, hsame⟩ := DB.SameFiles.of_delete hdelete
        exact ⟨first, n, ⟨rfl, rfl⟩, hnum.congr hsame.sstFiles hsame.nextSstId fun _ _ => by rw [hd]⟩
  have hstep : (Session.mk ⟨.empty, older⟩ []).call {} (.delete [1] ⟨1, by decide⟩) =
      ⟨⟨gone, older⟩, [.delete [1]]⟩ := rfl
  rw [hstep] at h₁
  have hshort : older.length < 2 := by
    change n₁ = older.length at hlen
    omega
  obtain ⟨htables, hflushed⟩ := flush_gone hshort
  obtain ⟨first₂, n₂, heffect, h₂⟩ :=
    h₁.call hfit (by omega) .flushMemTable (P := Numbered.Effect first₁ n₁) (fun m hm => nomatch hm)
    (by rw [htables]; exact gone_fits) fun d db d' db' a hnum hcall => by
      obtain ⟨r, hflush, he⟩ := Option.map_eq_some_iff.mp hcall
      obtain ⟨-, rfl⟩ := Prod.mk.inj he
      obtain ⟨first', n', heffect, hnum', -⟩ := hnum.flush (by omega) (by omega) hflush
      exact ⟨first', n', heffect, hnum'⟩
  rw [hflushed] at h₂
  have hlen₂ := h₂.length
  rw [List.length_append, List.length_singleton, ← h.length] at hlen₂
  cases heffect with
  | keep => omega
  | grow => exact h₂
  | merge hmany => omega
  | growMerge hpos => omega

theorem Reached.compaction {g : SortedMap Bytes Bytes} {first : Nat} (h : Reached ⟨⟨.empty, [g, gone]⟩, []⟩ first 2)
    (hg : g = .empty ∨ g = gone) (hfit : first + 2 + 1 < 2 ^ 63) : Reached ⟨⟨.empty, [.empty]⟩, []⟩ (first + 2) 1 := by
  have htables : Session.callTables {} ⟨⟨.empty, [g, gone]⟩, []⟩ .compaction = [.empty] := by
    rcases hg with rfl | rfl <;> rfl
  have hmerged : Session.call {} ⟨⟨.empty, [g, gone]⟩, []⟩ .compaction = ⟨⟨.empty, [.empty]⟩, []⟩ := by
    rcases hg with rfl | rfl <;> rfl
  obtain ⟨first', n', ⟨rfl, rfl⟩, h'⟩ := h.call hfit (by decide) .compaction (P := fun i j => i = first + 2 ∧ j = 1)
    (fun m hm => nomatch hm) (by rw [htables]; exact empty_fits) fun d db d' db' a hnum hcall => by
      obtain ⟨r, hcompact, he⟩ := Option.map_eq_some_iff.mp hcall
      obtain ⟨-, rfl⟩ := Prod.mk.inj he
      rcases hnum.doCompaction (by omega) hcompact with ⟨hle, -⟩ | ⟨-, hnum'⟩
      · omega
      · exact ⟨_, _, ⟨rfl, rfl⟩, hnum'⟩
  rwa [hmerged] at h'

/-- Two flushes and a compaction, again and again. -/
theorem exists_reached (k : Nat) (hk : 2 * k + 6 < 2 ^ 63) : Reached ⟨⟨.empty, [.empty]⟩, []⟩ (2 * k + 3) 1 := by
  induction k with
  | zero =>
      have h := (Reached.create.deleteFlush (by decide) (by decide)).deleteFlush (by decide) (by decide)
      exact h.compaction (.inr rfl) (by decide)
  | succ k ih =>
      have h := (ih (by omega)).deleteFlush (by omega) (by decide)
      exact h.compaction (.inl rfl) (by omega)

theorem sst_age_order_two : ∃ names d db, Dated .source NumbersFit names d db ∧ d.find (sstName 2) ≠ none ∧
    AgeOrder .source {} (db.left false d) names := by
  obtain ⟨names, d, db, tables, hdated, -, -, hnum⟩ :=
    (Reached.create.deleteFlush (by decide) (by decide)).deleteFlush (by decide) (by decide)
  have hsecond : sstName 2 ∈ d.sstNames := (hnum.stored _).mpr (mem_sstRange.mpr ⟨2, by decide, by decide, rfl⟩)
  refine ⟨names, d, db, hdated, (mem_sstNames.mp hsecond).1, (sst_age_order_iff hdated false {}).mpr ?_⟩
  rintro w hw ⟨a, b, -, hb, -, hwb⟩
  have hlt := (mem_range_of_find hnum.stored hnum.fit hb).2
  have hpow : 10 ^ 6 ≤ 10 ^ w := Nat.pow_le_pow_right (by decide) hw
  omega

/-- 1000000.sst comes before 999999.sst. -/
theorem sst_age_order_million : ∃ names d db, Dated .source NumbersFit names d db ∧
    ¬ AgeOrder .source {} (db.left false d) names := by
  obtain ⟨names, d, db, tables, hdated, -, -, hmillion⟩ :=
    (exists_reached 499998 (by decide)).deleteFlush (by decide) (by decide)
  have hfind (i : Nat) (h : 999999 ≤ i ∧ i < 999999 + 2) :
    (db.left false d).find (sstName (UInt64.ofNat i)) ≠ none := by
    rw [find_left false (hasSstExtension_sstName _)]
    exact (mem_sstNames.mp ((hmillion.stored _).mpr (mem_sstRange.mpr ⟨i, h.1, h.2, rfl⟩))).1
  refine ⟨names, d, db, hdated, fun h => ?_⟩
  obtain ⟨first, n, rfl, hnum, -⟩ := hdated.numbered
  refine not_straddles (fun name => (mem_sstNames_left false name).trans (hnum.stored name)) hnum.fit
    {} h.files le_rfl ?_
  exact ⟨_, _, hfind 999999 (by decide), hfind 1000000 (by decide), by decide, by decide⟩

end MiniStorage.Engine

import Jfsrec.Scan

/-!
# Interrupted scans

What `do_scan` finds again from the prefix of `inoscan.txt` that a killed run
left behind.  A scan only ever appends to what `restore` put into the vector
(`doScan_appends`), so a resumed scan is right only if the numbers read back are
the first offsets of the log, each of them once.

`resumes_iff` says when they are: the text must stop behind the last digit of an
offset, before its newline, and that offset must not be the last slot of the
device.  A complete last line is read twice, an empty file is read as whatever
the variable held, and an incomplete number is some other offset.
-/

namespace Jfsrec

open Lib InodeVector

/-! ### The log -/

def Device.saneOffsets (dev : Device) : List ℕ :=
  (dev.sane 0 (dev.getSizeBytes / 512)).map Inode.byteOffset

theorem createIfSane_byteOffset {ip : Dinode} {offset : ℕ} {ino : Inode}
    (h : createIfSane ip offset = some ino) : ino.byteOffset = offset := by
  obtain ⟨kind, rfl⟩ := constructByMode_eq_some (createIfSane_eq_some h)
  rfl

variable {dev : Device}

theorem Device.mem_sane {i n : ℕ} {ino : Inode} (h : ino ∈ dev.sane i n) :
    ∃ c < n, ino.byteOffset = i + c * 512 ∧
      constructByMode (dev.dinodeAt ino.byteOffset) ino.byteOffset = some ino := by
  obtain ⟨c, hc, hs⟩ := List.mem_filterMap.mp h
  have hoff := createIfSane_byteOffset hs
  refine ⟨c, List.mem_range.mp hc, hoff, ?_⟩
  rw [hoff]
  exact createIfSane_eq_some hs

theorem Device.sane_pairwise (i n : ℕ) :
    (dev.sane i n).Pairwise (fun a b => a.byteOffset < b.byteOffset) := by
  rw [sane, List.pairwise_filterMap]
  refine List.pairwise_lt_range.imp ?_
  intro c c' hlt ino h ino' h'
  rw [createIfSane_byteOffset h, createIfSane_byteOffset h']
  omega

theorem Device.slot_of_mem_saneOffsets {o : ℕ} (h : o ∈ dev.saneOffsets) : dev.Slot o := by
  obtain ⟨ino, hino, rfl⟩ := List.mem_map.mp h
  obtain ⟨c, hc, hoff, _⟩ := dev.mem_sane hino
  have h1 := dev.getSizeBytes_eq
  exact ⟨by omega, by omega⟩

theorem Device.saneOffsets_nodup : dev.saneOffsets.Nodup := by
  refine List.Pairwise.map _ ?_ (dev.sane_pairwise 0 (dev.getSizeBytes / 512))
  intro a b hlt
  omega

theorem Device.sane_upTo {os : List ℕ} {o : ℕ} (h : os ++ [o] <+: dev.saneOffsets) :
    (dev.sane 0 (o / 512 + 1)).map Inode.byteOffset = os ++ [o] := by
  obtain ⟨t, ht⟩ := h
  have hslot : dev.Slot o := dev.slot_of_mem_saneOffsets (by rw [← ht]; simp)
  have hmod := hslot.1
  have hlt := hslot.2
  have hsize := dev.getSizeBytes_eq
  have hsplit := dev.sane_add 0 (o / 512 + 1) (dev.getSizeBytes / 512 - (o / 512 + 1))
  rw [show o / 512 + 1 + (dev.getSizeBytes / 512 - (o / 512 + 1)) = dev.getSizeBytes / 512
    by omega] at hsplit
  have hpair : (os ++ [o] ++ t).Pairwise (· < ·) := by
    rw [ht]
    exact (dev.sane_pairwise 0 _).map _ (fun _ _ h => h)
  -- both sides are the logged offsets up to `o`
  have hleft : dev.saneOffsets.filter (· ≤ o)
      = (dev.sane 0 (o / 512 + 1)).map Inode.byteOffset := by
    rw [saneOffsets, hsplit, List.map_append, List.filter_append, List.filter_eq_self.mpr,
      List.filter_eq_nil_iff.mpr, List.append_nil]
    · intro b hb
      obtain ⟨ino, hino, rfl⟩ := List.mem_map.mp hb
      obtain ⟨c, _, hoff, _⟩ := dev.mem_sane hino
      simp only [decide_eq_true_eq]
      omega
    · intro b hb
      obtain ⟨ino, hino, rfl⟩ := List.mem_map.mp hb
      obtain ⟨c, _, hoff, _⟩ := dev.mem_sane hino
      simp only [decide_eq_true_eq]
      omega
  have hright : dev.saneOffsets.filter (· ≤ o) = os ++ [o] := by
    rw [← ht, List.filter_append, List.filter_eq_self.mpr, List.filter_eq_nil_iff.mpr,
      List.append_nil]
    · intro b hb
      have := (List.pairwise_append.mp hpair).2.2 o (by simp) b hb
      simpa using this
    · intro b hb
      have h1 := (List.pairwise_append.mp (List.pairwise_append.mp hpair).1).2.2 b
      rcases List.mem_append.mp hb with hb | hb
      · simpa using Nat.le_of_lt (h1 hb o (by simp))
      · simpa using Nat.le_of_eq (List.mem_singleton.mp hb)
  rw [← hleft, hright]

theorem built_of_slot {env : Env} {o : ℕ} (h : env.device.Slot o) :
    built env o = constructByMode (env.device.dinodeAt o) o := by
  rw [built, readFromDisk_of_slot h]

/-- Reading back the offsets of sane inodes builds these inodes. -/
theorem map_built_sane {env : Env} {n : ℕ} (hn : n ≤ env.device.getSizeBytes / 512) :
    ((env.device.sane 0 n).map Inode.byteOffset).map (built env)
      = (env.device.sane 0 n).map some := by
  rw [List.map_map]
  refine List.map_congr_left (fun ino hino => ?_)
  obtain ⟨c, hc, hoff, hcon⟩ := env.device.mem_sane hino
  have h1 := env.device.getSizeBytes_eq
  rw [Function.comp, built_of_slot ⟨by omega, by omega⟩, hcon]

theorem byteOffset_of_built {env : Env} {n : ℕ} {ino : Inode} (h : built env n = some ino) :
    ino.byteOffset = n := by
  unfold built readFromDisk at h
  cases hr : env.device.readBytes (toInt64 n) 512 env.fresh with
  | error e => rw [hr] at h; cases h
  | ok b =>
    rw [hr] at h
    obtain ⟨kind, rfl⟩ := constructByMode_eq_some h
    rfl

namespace Scanner

variable {env : Env} {s s' : Scanner}

/-! ### What a scan does to the vector it starts from -/

theorem scanChunks_found (dev : Device) (limit : ℕ) : ∀ (fuel i : ℕ) (chunk : Buffer) (s : Scanner),
    ∃ os, (s.scanChunks dev limit fuel i chunk).2 = s.found os := by
  intro fuel
  induction fuel with
  | zero => intro i chunk s; exact ⟨[], rfl⟩
  | succ fuel ih =>
    intro i chunk s
    rw [scanChunks]
    split
    · split
      · exact ⟨[], rfl⟩
      · rename_i chunk' _
        rw [scanBlocks_found]
        obtain ⟨os, hos⟩ := ih (wrap64 (i + chunkBytes dev)) chunk' (s.found _)
        exact ⟨_, hos.trans (found_append s _ os).symm⟩
    · exact ⟨[], rfl⟩

/-- **A scan appends to what `restore` left.** -/
theorem doScan_appends (hok : (s.doScan env).1 = .ok ()) :
    ∃ start s' os, s.restore env = (.ok start, s') ∧ (s.doScan env).2 = s'.found os := by
  rw [doScan] at hok ⊢
  rcases hr : s.restore env with ⟨_ | start, s'⟩
  · rw [hr] at hok; cases hok
  rw [hr] at hok
  obtain ⟨os, hos⟩ := scanChunks_found env.device
    (sub64 env.device.getSizeBytes (chunkBytes env.device))
    (env.device.getSizeBytes / chunkBytes env.device + 2) start env.fresh s'
  rcases hc : s'.scanChunks env.device (sub64 env.device.getSizeBytes (chunkBytes env.device))
    (env.device.getSizeBytes / chunkBytes env.device + 2) start env.fresh with ⟨_ | ⟨i, chunk⟩, s''⟩
  · simp only [hc] at hok; cases hok
  simp only [hc, scanRest] at hok hos ⊢
  split at hok
  · cases hok
  · rw [hos, scanBlocks_found, ← found_append]
    exact ⟨start, s', _, rfl, rfl⟩

/-- `restore` of a file that reads as `ns`. -/
theorem restore_of_values {text : List Char} {ns : List ℕ} {f : Istream} {bo : ℕ}
    (hfile : s.files .inoscan = some text)
    (hns : Istream.values 64 (text.length + 2) ⟨text, false, false⟩ env.bo = some (ns, f, bo))
    (hread : ∀ n ∈ ns, ∃ i, readFromDisk env n = .ok i) :
    s.restore env = (.ok (wrap64 (bo + inodeSize)),
      { s with inovec := (ns.map (built env)).foldl (addBuilt addInode) s.inovec }) := by
  rw [restore, hfile]
  simp only [readPositions, Istream.whileNotEof_of_values s.inovec hns,
    runAll_loadInode ns s.inovec hread, Except.map]

theorem restore_ok {text : List Char} {ns : List ℕ} {f : Istream} {bo start : ℕ}
    (hfile : s.files .inoscan = some text)
    (hns : Istream.values 64 (text.length + 2) ⟨text, false, false⟩ env.bo = some (ns, f, bo))
    (hok : s.restore env = (.ok start, s')) : ∀ n ∈ ns, ∃ i, readFromDisk env n = .ok i := by
  rw [restore, hfile] at hok
  simp only [readPositions, Istream.whileNotEof_of_values s.inovec hns] at hok
  rcases hr : Istream.runAll (loadInode env addInode) ns s.inovec with ⟨_ | _, v⟩
  · rw [hr] at hok; cases hok
  · exact readable_of_runAll ns hr

/-- What a scan that ends has in its vector, from a file that reads as `ns`. -/
theorem contents_resumed {text : List Char} {ns : List ℕ} {f : Istream} {bo : ℕ} {ok : Bool}
    {files : Files} (hfile : files .inoscan = some text)
    (hns : Istream.values 64 (text.length + 2) ⟨text, false, false⟩ env.bo = some (ns, f, bo))
    (hok : (doScan env ⟨start ok, files⟩).1 = .ok ()) :
    (∀ n ∈ ns, ∃ i, readFromDisk env n = .ok i) ∧
      ∃ os : List Inode, (doScan env ⟨start ok, files⟩).2.inovec.contents
        = ns.map (built env) ++ os.map some := by
  obtain ⟨st, s', os, hrestore, hscan⟩ := doScan_appends hok
  have hread := restore_ok (s := ⟨start ok, files⟩) hfile hns hrestore
  rw [restore_of_values (s := ⟨start ok, files⟩) hfile hns hread] at hrestore
  obtain ⟨-, rfl⟩ := by simpa using hrestore
  refine ⟨hread, os, ?_⟩
  rw [hscan, found_inovec, ← List.foldl_append]
  exact contents_foldl_start ok _

/-! ### Which prefixes are resumed from -/

/-- The texts a killed scan can leave in `inoscan.txt`: the stream may have been
flushed at any byte of the log. -/
def CanLeave (dev : Device) (p : List Char) : Prop :=
  ∃ (env : Env) (ok : Bool) (files : Files), env.device = dev ∧ files .inoscan = none ∧
    ∃ log, (doScan env ⟨start ok, files⟩).2.files .inoscan = some log ∧ p <+: log

/-- A scan that finds `p` in `inoscan.txt` ends with the inodes that an
uninterrupted one finds, whatever uninitialised memory holds. -/
def Resumes (dev : Device) (p : List Char) : Prop :=
  ∀ (env env' : Env) (ok ok' : Bool) (files files' : Files), env.device = dev →
    env'.device = dev → files .inoscan = none → files' .inoscan = some p →
    (doScan env' ⟨start ok', files'⟩).1 = .ok () ∧
      (doScan env' ⟨start ok', files'⟩).2.inovec.contents
        = (doScan env ⟨start ok, files⟩).2.inovec.contents

/-- The text stops behind the last digit of a logged offset, and that offset is
not the last slot of the device. -/
def StopsBehindOffset (dev : Device) (p : List Char) : Prop :=
  ∃ os o, os ++ [o] <+: dev.saneOffsets ∧ p = Istream.lines os ++ Nat.toDigits 10 o ∧
    o + 512 < dev.getSizeBytes

variable {p : List Char}

theorem not_ok_of_small (hsmall : env.device.getSizeBytes < chunkBytes env.device) :
    (s.doScan env).1 ≠ .ok () := by
  intro hok
  obtain ⟨st, s', os, hrestore, _⟩ := doScan_appends hok
  rw [doScan_small hsmall hrestore] at hok
  cases hok

theorem prefix_of_map_built (env : Env) {ns os : List ℕ} {r : List (Option ℕ)}
    (h : os.map some = ns.map (fun n => (built env n).map Inode.byteOffset) ++ r) : ns <+: os := by
  induction ns generalizing os with
  | nil => exact List.nil_prefix
  | cons n ns ih =>
    cases os with
    | nil => simp at h
    | cons o os =>
      simp only [List.map_cons, List.cons_append, List.cons.injEq] at h
      obtain ⟨ino, hb, ho⟩ := Option.map_eq_some_iff.mp h.1.symm
      obtain rfl : o = n := by rw [← ho, byteOffset_of_built hb]
      exact (List.prefix_cons_inj o).mpr (ih h.2)

/-- **A scan resumes only from the first offsets of the log.** -/
theorem Resumes.reads_first (env : Env) (h : Resumes dev p)
    (hbig : chunkBytes dev ≤ dev.getSizeBytes) {ns : List ℕ}
    {f : Istream} {bo : ℕ} (henv : env.device = dev)
    (hns : Istream.values 64 (p.length + 2) ⟨p, false, false⟩ env.bo = some (ns, f, bo)) :
    (∀ n ∈ ns, ∃ i, readFromDisk env n = .ok i) ∧ ns <+: dev.saneOffsets := by
  subst henv
  obtain ⟨hok, heq⟩ := h env env true true (fun _ => none)
    (Function.update (fun _ => none) .inoscan (some p)) rfl rfl rfl (Function.update_self _ _ _)
  obtain ⟨hread, os, hos⟩ := contents_resumed (Function.update_self _ _ _) hns hok
  refine ⟨hread, ?_⟩
  obtain ⟨_, hfull, _⟩ := doScan_full env (fun _ => none) true hbig rfl
  rw [hfull] at heq
  have hoff := congrArg (List.map (Option.map Inode.byteOffset)) (heq.symm.trans hos)
  simp only [List.map_map, List.map_append] at hoff
  refine prefix_of_map_built env (r := os.map (some ∘ Inode.byteOffset)) ?_
  rw [Device.saneOffsets, List.map_map]
  exact hoff

/-- A text of complete lines is not resumed from. -/
theorem not_resumes_lines {os : List ℕ} (hos : os <+: dev.saneOffsets) :
    ¬ Resumes dev (Istream.lines os) := by
  intro h
  have hsize := dev.getSizeBytes_lt
  -- memory may hold a position behind the device
  let env : Env := ⟨dev, fun _ => 0, dev.getSizeBytes + 1, by omega⟩
  by_cases hbig : chunkBytes dev ≤ dev.getSizeBytes
  · have hlt : ∀ n ∈ os, n < 2 ^ 64 := by
      intro n hn
      have := (Device.slot_of_mem_saneOffsets (hos.subset hn)).2
      omega
    have hns := Istream.values_lines (w := 64) os [] env.bo ((Istream.lines os).length + 2)
      (by simp) hlt (by have := Istream.length_le_lines os; omega)
    obtain ⟨hread, hpre⟩ := h.reads_first env hbig rfl hns
    cases os using List.reverseRecOn with
    | nil =>
      obtain ⟨i, hi⟩ := hread env.bo (by simp)
      obtain ⟨what, hw⟩ := readFromDisk_beyond env (Nat.lt_succ_self dev.getSizeBytes)
        env.bo_lt
      rw [hw] at hi
      cases hi
    | append_singleton os o =>
      -- the last offset is read twice
      have hnd := hpre.sublist.nodup Device.saneOffsets_nodup
      rw [List.getLastD_concat, List.append_assoc] at hnd
      exact absurd (List.nodup_append.mp hnd).2.1 (by simp)
  · exact not_ok_of_small (Nat.lt_of_not_le hbig) (h env env true true (fun _ => none)
      (Function.update (fun _ => none) .inoscan (some (Istream.lines os))) rfl rfl rfl
      (Function.update_self _ _ _)).1

/-- A text that stops within a number is not resumed from. -/
theorem not_resumes_digits {os : List ℕ} {o : ℕ} {ds : List Char}
    (hbig : chunkBytes dev ≤ dev.getSizeBytes) (hos : os ++ [o] <+: dev.saneOffsets)
    (hds : ds <+: Nat.toDigits 10 o) (hne : ds ≠ []) (hproper : ds ≠ Nat.toDigits 10 o) :
    ¬ Resumes dev (Istream.lines os ++ ds) := by
  intro h
  have hsize := dev.getSizeBytes_lt
  have hlt := Istream.ofDigitChars_prefix_lt hds hne hproper
  have hlog : ∀ n ∈ os ++ [o], n < 2 ^ 64 := by
    intro n hn
    have := (Device.slot_of_mem_saneOffsets (hos.subset hn)).2
    omega
  let env := dev.zeroed
  have hns := Istream.values_lines_digits (w := 64) os [] ds env.bo
    ((Istream.lines os ++ ds).length + 2) (by simp) (fun n hn => hlog n (by simp [hn])) hne
    (fun c hc => Istream.isDigit_toDigits c (hds.subset hc)) (by have := hlog o (by simp); omega)
    (by have := Istream.length_le_lines os; simp; omega)
  obtain ⟨_, hpre⟩ := h.reads_first env hbig rfl hns
  have heq := List.prefix_of_prefix_length_le hpre hos (by simp)
  have := heq.eq_of_length (by simp)
  simp at this
  omega

theorem restore_of_stops (env : Env) (ok : Bool) {os : List ℕ} {o : ℕ} {files : Files}
    (hos : os ++ [o] <+: env.device.saneOffsets)
    (hfile : files .inoscan = some (Istream.lines os ++ Nat.toDigits 10 o)) :
    restore env ⟨start ok, files⟩ = (.ok (o + 512),
      ⟨((os ++ [o]).map (built env)).foldl (addBuilt addInode) (start ok), files⟩) := by
  have hsize := env.device.getSizeBytes_lt
  have hslot : ∀ n ∈ os ++ [o], env.device.Slot n :=
    fun n hn => Device.slot_of_mem_saneOffsets (hos.subset hn)
  have hlt : ∀ n ∈ os ++ [o], n < 2 ^ 63 := fun n hn => (hslot n hn).lt_2_63
  have ho := hlt o (by simp)
  have hns := Istream.values_lines_digits (w := 64) os [] (Nat.toDigits 10 o) env.bo
    ((Istream.lines os ++ Nat.toDigits 10 o).length + 2) (by simp)
    (fun n hn => by have := hlt n (by simp [hn]); omega) Nat.toDigits_ne_nil
    Istream.isDigit_toDigits (by rw [Nat.ofDigitChars_ten_toDigits]; omega)
    (by have := Istream.length_le_lines os; simp; omega)
  rw [Nat.ofDigitChars_ten_toDigits] at hns
  rw [restore_of_values (s := ⟨start ok, files⟩) hfile hns
    (fun n hn => ⟨_, readFromDisk_of_slot (hslot n hn)⟩), inodeSize, wrap64_of_lt (by omega)]

/-- Behind the last slot there is nothing to read, and the scan throws. -/
theorem not_resumes_last {os : List ℕ} {o : ℕ} (hos : os ++ [o] <+: dev.saneOffsets)
    (hlast : o + 512 = dev.getSizeBytes) :
    ¬ Resumes dev (Istream.lines os ++ Nat.toDigits 10 o) := by
  intro h
  have hsize := dev.getSizeBytes_lt
  have hcb := chunkBytes_bounds dev
  let env := dev.zeroed
  let files : Files := Function.update (fun _ => none) .inoscan
    (some (Istream.lines os ++ Nat.toDigits 10 o))
  have hok := (h env env true true (fun _ => none) files rfl rfl rfl (Function.update_self _ _ _)).1
  by_cases hbig : chunkBytes dev ≤ dev.getSizeBytes
  · rw [doScan, restore_of_stops env true hos (Function.update_self _ _ _), hlast] at hok
    simp only [env, Device.zeroed] at hok
    rw [sub64_of_le hbig (by omega), scanChunks, if_neg (by omega)] at hok
    have hsub : sub64 dev.getSizeBytes dev.getSizeBytes = 0 := by
      rw [sub64_of_le (Nat.le_refl _) (by omega), Nat.sub_self]
    have hzero : ∃ e, dev.readBytes (toInt64 dev.getSizeBytes) 0 (fun _ => 0) = .error e := by
      rw [toInt64_of_lt hsize, Device.readBytes, if_neg (lt_irrefl _), if_neg (by omega),
        if_pos rfl]
      exact ⟨_, rfl⟩
    obtain ⟨e, he⟩ := hzero
    simp only [scanRest, hsub, Nat.zero_mod, he] at hok
    cases hok
  · exact not_ok_of_small (Nat.lt_of_not_le hbig) hok

/-- From an offset that is not the last slot the scan goes on as if it had never
stopped. -/
theorem resumes_of_stops (hbig : chunkBytes dev ≤ dev.getSizeBytes) (hp : StopsBehindOffset dev p) :
    Resumes dev p := by
  intro env env' ok ok' files files' henv henv' hfile hfile'
  subst henv'
  obtain ⟨os, o, hos, rfl, hlt⟩ := hp
  have hslot : env'.device.Slot o := Device.slot_of_mem_saneOffsets (hos.subset (by simp))
  have hmod := hslot.1
  have hsize := env'.device.getSizeBytes_eq
  have hfull := (doScan_full env files ok (by rw [henv]; exact hbig) hfile).2.1
  have hscan := doScan_from hbig (restore_of_stops env' ok' hos hfile') ⟨by omega, hlt⟩
  have hall : env'.device.sane 0 (o / 512 + 1) ++
      env'.device.sane (o + 512) ((env'.device.getSizeBytes - (o + 512)) / 512)
        = env'.device.sane 0 (env'.device.getSizeBytes / 512) := by
    have hadd := env'.device.sane_add 0 (o / 512 + 1) ((env'.device.getSizeBytes - (o + 512)) / 512)
    rw [show 0 + (o / 512 + 1) * 512 = o + 512 by omega] at hadd
    rw [← hadd]
    congr 1
    omega
  refine ⟨by rw [hscan], ?_⟩
  rw [hscan, found_inovec, ← List.foldl_append, contents_foldl_start, hfull, henv, ← hall,
    ← env'.device.sane_upTo hos, map_built_sane (by omega), List.map_append]

/-- **Which interrupted scans resume.** -/
theorem resumes_iff (hp : CanLeave dev p) :
    Resumes dev p ↔ chunkBytes dev ≤ dev.getSizeBytes ∧ StopsBehindOffset dev p := by
  obtain ⟨env, ok, files, rfl, hfile, log, hlog, hpre⟩ := hp
  refine ⟨fun h => ?_, fun h => resumes_of_stops h.1 h.2⟩
  by_cases hbig : chunkBytes env.device ≤ env.device.getSizeBytes
  · refine ⟨hbig, ?_⟩
    rw [(doScan_full env files ok hbig hfile).2.2] at hlog
    obtain rfl := Option.some.inj hlog
    rcases Istream.prefix_lines hpre with ⟨os, hos, rfl⟩ | ⟨os, o, ds, hos, hds, hne, rfl⟩
    · exact absurd h (not_resumes_lines hos)
    · by_cases hproper : ds = Nat.toDigits 10 o
      · subst hproper
        have hslot : env.device.Slot o := Device.slot_of_mem_saneOffsets (hos.subset (by simp))
        refine ⟨os, o, hos, rfl, Nat.lt_of_le_of_ne hslot.add_le (fun hlast => ?_)⟩
        exact not_resumes_last hos hlast h
      · exact absurd h (not_resumes_digits hbig hos hds hne hproper)
  · have hload := h env env true true (fun _ => none)
      (Function.update (fun _ => none) .inoscan (some p)) rfl rfl rfl (Function.update_self _ _ _)
    exact absurd hload.1 (not_ok_of_small (Nat.lt_of_not_le hbig))

theorem canLeave_initial (hbig : chunkBytes dev ≤ dev.getSizeBytes)
    (hp : p <+: Istream.lines dev.saneOffsets) : CanLeave dev p :=
  ⟨dev.zeroed, true, fun _ => none, rfl, rfl, _,
    (doScan_full _ _ true hbig rfl).2.2, hp⟩

theorem oneChunk_log : ∃ t, oneChunk.device.saneOffsets = 0 :: t := by
  have h := oneChunk.device.sane_add 0 1 (2 ^ 15 - 1)
  have hsize : oneChunk.device.getSizeBytes / 512 = 1 + (2 ^ 15 - 1) := by decide
  have hfirst : (oneChunk.device.sane 0 1).map Inode.byteOffset = [0] := by decide
  exact ⟨_, by rw [Device.saneOffsets, hsize, h, List.map_append, hfirst, List.singleton_append]⟩

/-- Killed behind the first digit it logs, a scan of one chunk resumes. -/
theorem resumes_oneChunk : Resumes oneChunk.device ['0'] := by
  obtain ⟨t, ht⟩ := oneChunk_log
  have hbig : chunkBytes oneChunk.device ≤ oneChunk.device.getSizeBytes := by decide
  have hleave : CanLeave oneChunk.device ['0'] := by
    refine canLeave_initial hbig ?_
    rw [ht, Istream.lines_cons]
    exact ⟨'\n' :: Istream.lines t, rfl⟩
  exact (resumes_iff hleave).mpr ⟨hbig, [], 0, by simp [ht], rfl, by decide⟩

/-- Killed behind its first line, it does not. -/
theorem not_resumes_oneChunk :
    CanLeave oneChunk.device (Istream.lines [0]) ∧
      ¬ Resumes oneChunk.device (Istream.lines [0]) := by
  obtain ⟨t, ht⟩ := oneChunk_log
  have hpre : [0] <+: oneChunk.device.saneOffsets := by simp [ht]
  refine ⟨canLeave_initial (by decide) ?_, not_resumes_lines hpre⟩
  rw [ht]
  exact ⟨Istream.lines t, (Istream.lines_append [0] t).symm⟩

end Scanner

end Jfsrec

import Jfsrec.Interrupted
import Jfsrec.Main

/-!
# Killing the recoverer

`recover` may be killed at any time.  Up to the queue it has touched nothing, and what it does from
there on is what the loops over paths do up to where they are killed: `KilledRecovery.killed`.
-/

namespace Jfsrec

open Lib InodeVector

namespace Recoverer

/-- `recover_dirtree` and `recover_iterative`, on the inodes of a queue, up to where they are
killed: they make `fs'` of `fs`, and leave the file at the path in the middle. -/
inductive KilledQueue (env : Env) (legal : List Char → Bool) (fuel : ℕ) (clock : Ptr → Moment)
    (now : ℤ) (queue : List Ptr) (h : Heap) (fs : FileSystem) : Option Path → FileSystem → Prop
  /-- In `create_directories` for the inode `p`. -/
  | inDirtree {before after : List Ptr} {p : Ptr} {h₁ h₂ : Heap} {path : Path}
      {fs₁ fs₂ fs' : FileSystem} (k : ℕ) (hqueue : queue = before ++ p :: after)
      (hroot : fs.createDirectory now [] = some fs₁)
      (hbefore : before.foldlM (createDirRound legal fuel clock) (h, fs₁) = some (h₁, fs₂))
      (hdir : h₁.isDir p) (hpath : fullPath legal fuel p h₁ = some (path, h₂))
      (hp : (path.inits.take k).foldlM (FileSystem.createDirectory (clock p).created) fs₂
        = some fs') :
      KilledQueue env legal fuel clock now queue h fs none fs'
  /-- Behind the inodes `before`, which may be all. -/
  | between {before after : List Ptr} {h₁ h₂ : Heap} {fs₁ fs₂ fs' : FileSystem} {b b' : Buffer}
      (hqueue : queue = before ++ after) (hroot : fs.createDirectory now [] = some fs₁)
      (hdirs : queue.foldlM (createDirRound legal fuel clock) (h, fs₁) = some (h₁, fs₂))
      (hbefore : before.foldlM (recoverRound env legal fuel clock) (h₁, fs₂, b)
        = some (h₂, fs', b')) :
      KilledQueue env legal fuel clock now queue h fs none fs'
  /-- In operation `i` of `save_file` for the inode `p`, of which `n` bytes are written, or behind
  the last one. -/
  | inSave {before after : List Ptr} {p : Ptr} {h₁ h₂ h₃ : Heap} {path : Path}
      {fs₁ fs₂ fs₃ : FileSystem} {b b' : Buffer} {s : Saved} {ops : List FileOp} (i n : ℕ)
      (hqueue : queue = before ++ p :: after) (hroot : fs.createDirectory now [] = some fs₁)
      (hdirs : queue.foldlM (createDirRound legal fuel clock) (h, fs₁) = some (h₁, fs₂))
      (hbefore : before.foldlM (recoverRound env legal fuel clock) (h₁, fs₂, b)
        = some (h₂, fs₃, b'))
      (hfile : (h₂.obj p).kind = .file) (hpath : fullPath legal fuel p h₂ = some (path, h₃))
      (hskip : FileInode.skips env .quiet (h₂.obj p).byteOffset (fs₃.file path) = .ret false)
      (hthere : (fs₃.file path).isSome ∨ (fs₃.dirTime path.dropLast).isSome)
      (hsave : FileInode.saveFile env fuel (clock p).early (.ret ()) (h₂.obj p).byteOffset b'
        = some s)
      (hops : s.ops = some ops) :
      KilledQueue env legal fuel clock now queue h fs (some path)
        (fs₃.tear (turnOf clock h₂ p path)
          ⟨SparseFile.empty.run (SparseFile.done ops i n), (clock p).now⟩)

/-- `recover`, up to where it is killed. -/
inductive KilledRecovery (env : Env) (legal : List Char → Bool) (fuel : ℕ) (o : PrioOptions)
    (clock : Ptr → Moment) (now : ℤ) (v : InodeVector) (fs : FileSystem) :
    Option Path → FileSystem → Prop
  /-- Before it touches the output directory. -/
  | before : KilledRecovery env legal fuel o clock now v fs none fs
  | inQueue {w u : InodeVector} {roots queue : List Ptr} {h : Heap} {p : Option Path}
      {fs' : FileSystem} (hw : findDirectoryParents env v = some w)
      (hu : findFileParentsAndNamesOn env fuel w = some u)
      (hroots : findRoots fuel u [] = some roots)
      (horder : recoveryOrder legal fuel o u = some (queue, h))
      (hkill : KilledQueue env legal fuel clock now queue h fs p fs') :
      KilledRecovery env legal fuel o clock now v fs p fs'

variable {env : Env} {legal : List Char → Bool} {fuel : ℕ} {o : PrioOptions}
  {clock : Ptr → Moment} {now : ℤ} {v : InodeVector} {fs fs' fs₁ fs₂ : FileSystem}
  {names : Ptr → List InodeName} {placed : Ptr → Path} {queue l : List Ptr} {g h h' k : Heap}
  {q : Option Path} {b : Buffer}

/-- A run that has come to its end is one that is killed behind all inodes. -/
theorem killedRecovery_of_recoverOn
    (hrun : recoverOn env legal fuel o clock now v fs b = some fs') :
    KilledRecovery env legal fuel o clock now v fs none fs' := by
  obtain ⟨w, hw, hrun⟩ := Option.bind_eq_some_iff.mp hrun
  obtain ⟨u, hu, hrun⟩ := Option.bind_eq_some_iff.mp hrun
  obtain ⟨roots, hroots, hrun⟩ := Option.bind_eq_some_iff.mp hrun
  obtain ⟨⟨queue, h⟩, horder, hrun⟩ := Option.bind_eq_some_iff.mp hrun
  obtain ⟨fs₁, hroot, hrun⟩ := Option.bind_eq_some_iff.mp hrun
  obtain ⟨⟨h₁, fs₂⟩, hdirs, hrun⟩ := Option.bind_eq_some_iff.mp hrun
  obtain ⟨⟨h₂, fs₃, b'⟩, hturns, rfl⟩ := Option.map_eq_some_iff.mp hrun
  exact .inQueue hw hu hroots horder
    (.between (List.append_nil queue).symm hroot hdirs hturns)

section Queue

variable (hg : SameInodes g h)

include hg

theorem exists_createDir_of_rounds
    (hl : ∀ x ∈ l, ReturnsPath legal fuel (Asks legal h) x (placed x)) (hk : Asks legal h k)
    (hrun : l.foldlM (createDirRound legal fuel clock) (k, fs₁) = some (h', fs₂)) :
    Asks legal h h' ∧ (turnsOf clock g placed l).foldlM Turn.createDir fs₁ = some fs₂ := by
  obtain ⟨k', hk', heq⟩ := foldlM_carry
    (fun p hp k fs hk => createDirRound_eq clock hg (fun _ => hl p hp) hk fs) hk (b := fs₁)
  rw [heq] at hrun
  obtain ⟨fs₂', hturns, hpair⟩ := Option.map_eq_some_iff.mp hrun
  obtain ⟨rfl, rfl⟩ := Prod.mk.inj hpair
  exact ⟨hk', hturns⟩

theorem exists_recover_of_rounds
    (hl : ∀ x ∈ l, ReturnsPath legal fuel (Asks legal h) x (placed x)) (hk : Asks legal h k)
    {s s' : FileSystem × Buffer}
    (hrun : l.foldlM (recoverRound env legal fuel clock) (k, s) = some (h', s')) :
    Asks legal h h' ∧
      (turnsOf clock g placed l).foldlM (Turn.recover env fuel) s = some s' := by
  obtain ⟨k', hk', heq⟩ := foldlM_carry
    (fun p hp k s hk => recoverRound_eq env clock hg (hl p hp) hk s) hk (b := s)
  rw [heq] at hrun
  obtain ⟨s₂, hturns, hpair⟩ := Option.map_eq_some_iff.mp hrun
  obtain ⟨rfl, rfl⟩ := Prod.mk.inj hpair
  exact ⟨hk', hturns⟩

/-- **A queue that is killed** does what the turns do that are killed. -/
theorem KilledQueue.killed
    (hl : ∀ x ∈ queue, ReturnsPath legal fuel (Asks legal h) x (placed x)) (hk : Asks legal h k)
    (hkill : KilledQueue env legal fuel clock now queue k fs q fs') :
    Killed env fuel (turnsOf clock g placed queue) fs q fs' := by
  have hmade : ∀ {us : List Turn} {fs₁ fs₂ : FileSystem}, fs.createDirectory now [] = some fs₁ →
      us.foldlM Turn.createDir fs₁ = some fs₂ → makeDirtree now us fs = some fs₂ := by
    intro us fs₁ fs₂ hroot hturns
    rw [makeDirtree, hroot]
    exact hturns
  have hsame : ∀ {k'}, Asks legal h k' → SameInodes g k' := fun hk' => hg.trans hk'.renamed.same
  -- an inode that is come to is answered its path
  have hasked : ∀ {p : Ptr} {k' k'' : Heap} {path : Path}, p ∈ queue → Asks legal h k' →
      fullPath legal fuel p k' = some (path, k'') → path = placed p := by
    intro p k' k'' path hp hk' hpath
    obtain ⟨_, hanswer, _⟩ := hl p hp k' hk'
    exact (Prod.mk.inj (Option.some.inj (hpath.symm.trans hanswer))).1
  cases hkill with
  | @inDirtree before after p _ _ _ _ _ _ n hqueue hroot hbefore hdir hpath hp =>
    have hmem : ∀ x ∈ before, x ∈ queue := fun x hx => hqueue ▸ List.mem_append_left _ hx
    have hpq : p ∈ queue := hqueue ▸ List.mem_append_right _ List.mem_cons_self
    obtain ⟨hk₁, hturns⟩ := exists_createDir_of_rounds hg (fun x hx => hl x (hmem x hx)) hk hbefore
    obtain rfl := hasked hpq hk₁ hpath
    have hturns' : turnsOf clock g placed queue = turnsOf clock g placed before
        ++ turnOf clock g p (placed p) :: turnsOf clock g placed after := by
      rw [hqueue, turnsOf, List.map_append]
      rfl
    exact .inDirtree n hturns' (hmade hroot hturns) (((hsame hk₁).kind p).symm.trans hdir) hp
  | @between before after _ _ _ _ _ _ _ hqueue hroot hdirs hbefore =>
    have hmem : ∀ x ∈ before, x ∈ queue := fun x hx => hqueue ▸ List.mem_append_left _ hx
    obtain ⟨hk₁, hturns⟩ := exists_createDir_of_rounds hg hl hk hdirs
    obtain ⟨_, hrec⟩ := exists_recover_of_rounds hg (fun x hx => hl x (hmem x hx)) hk₁ hbefore
    have hturns' : turnsOf clock g placed queue
        = turnsOf clock g placed before ++ turnsOf clock g placed after := by
      rw [hqueue, turnsOf, List.map_append]
      rfl
    exact .between hturns' (hmade hroot hturns) hrec
  | @inSave before after p _ _ _ _ _ _ _ _ _ _ _ i n hqueue hroot hdirs hbefore hfile hpath hskip
      hthere hsave hops =>
    have hmem : ∀ x ∈ before, x ∈ queue := fun x hx => hqueue ▸ List.mem_append_left _ hx
    have hpq : p ∈ queue := hqueue ▸ List.mem_append_right _ List.mem_cons_self
    obtain ⟨hk₁, hturns⟩ := exists_createDir_of_rounds hg hl hk hdirs
    obtain ⟨hk₂, hrec⟩ := exists_recover_of_rounds hg (fun x hx => hl x (hmem x hx)) hk₁ hbefore
    obtain rfl := hasked hpq hk₂ hpath
    have hoffset := (hsame hk₂).byteOffset p
    rw [hoffset] at hskip hsave
    have hturns' : turnsOf clock g placed queue = turnsOf clock g placed before
        ++ turnOf clock g p (placed p) :: turnsOf clock g placed after := by
      rw [hqueue, turnsOf, List.map_append]
      rfl
    exact .inSave i n hturns' (hmade hroot hturns) hrec (((hsame hk₂).kind p).symm.trans hfile)
      hskip hthere hsave hops

end Queue

/-- **A recovery that is killed** has touched nothing, or does what the turns do that are killed. -/
theorem KilledRecovery.killed (hdigits : ∀ n, legal (Nat.toDigits 10 n) = true)
    (hv : v.Indexed env) (hnew : Unnamed v.heap) (hn : NothingToReadmit names v)
    (ho : Orderly legal env names v placed)
    (hnames : ∃ fuel, ∀ n, fuel ≤ n → ∀ p ∈ v.inodes,
      (v.heap.obj p).extractInodeNames env n = some (names p)) (o : PrioOptions) :
    ∃ fuel, ∀ n, fuel ≤ n → ∀ clock now fs q fs',
      KilledRecovery env legal n o clock now v fs q fs' → q = none ∧ fs' = fs ∨
        Killed env n (turnsOf clock v.heap placed (ordered o placed (chosen env names o v placed)))
          fs q fs' := by
  obtain ⟨w, u, hw, hu, hsame, k, hk⟩ := exists_fuel_ordered hdigits hv hnew ho o
  obtain ⟨m, hm⟩ := hnames
  refine ⟨max k m, fun n hle clock now fs q fs' hkill => ?_⟩
  obtain ⟨-, ⟨h', hh', horder⟩, hpaths⟩ := hk n (by omega)
  cases hkill with
  | before => exact Or.inl ⟨rfl, rfl⟩
  | inQueue hw' hu' _ horder' hkill =>
    obtain rfl := Option.some.inj (hw.symm.trans hw')
    rw [findFileParentsAndNamesOn_eq hn hv (hm n (by omega)) hw] at hu'
    obtain rfl := Option.some.inj (hu.symm.trans hu')
    obtain ⟨rfl, rfl⟩ := Prod.mk.inj (Option.some.inj (horder.symm.trans horder'))
    exact Or.inr (hkill.killed hsame hpaths hh')

end Recoverer

end Jfsrec

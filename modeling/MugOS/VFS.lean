import MugOS.Hash
import MugOS.LinkedList

/-!
# Mounting Filesystems

`Kernel/Filesystem/VFS.c`. A pointer into a path is what is left of the path from there on, up to
its end, and `none` is `NULL`. The objects of the caches are numbered; the answers of
`Cache_malloc` are part of a request, so that a theorem about all requests holds for whatever the
slab allocator does.

The lookup of a component is not written yet: `subdir` answers with the entry that it is given.
Hence every absolute path is resolved, to the root. `VFS_mount` moreover allocates an entry for the
root of the mount, and then puts what the path was resolved to in its place.

Messages are left out, and `VFS_init`, which ends with one request.

## Main results

* `resolve_spec`, `resolve_null`: what a path is resolved to; for a path that is not `NULL` the loop
  ends and reads nothing at `NULL`.
* `mounts_run`: the mounts after any requests, and the entries that are lost.
-/

namespace MugOS.VFS

open LinkedList

/-! ### Paths -/

/-- `'/'`. -/
abbrev separator : UInt8 := 47

/-- `strchr(str, chr)`: what is left from the first `chr` on. -/
def strchr (chr : UInt8) : List UInt8 → Option (List UInt8)
  | [] => none
  | c :: rest => if c = chr then some (c :: rest) else strchr chr rest

/-- An `Entry`: the static root, or an object of the cache of entries. -/
inductive Entry
  | root
  | object (ptr : ℕ)
  deriving DecidableEq, Repr

/-- `subdir(entry, path)`: the entry itself, for a path that has a separator and is not
empty. -/
def subdir (entry : Entry) (path : Option (List UInt8)) : Option Entry :=
  match path.bind (strchr separator) with
  | none => none
  | some _ => if Hash.strlen (path.getD []) < 1 then none else some entry

/-- `nextNonSeparator(path)`. -/
def nextNonSeparator : List UInt8 → Option (List UInt8)
  | [] => none
  | c :: rest => if c = separator then nextNonSeparator rest else some (c :: rest)

/-- The loop of `resolve`, for at most `fuel` components. -/
def resolveLoop (parent : Bool) : ℕ → Entry → Option (List UInt8) → Except Fault Entry
  | 0, _, _ => .error .diverges
  | _ + 1, _, none => .error .wild
  | fuel + 1, cur, some name =>
      let entryName := nextNonSeparator name
      match subdir cur entryName with
      | none =>
          -- The loop ends, with the same entry as in the return for the parent.
          if parent then .ok cur else .ok cur
      | some next => resolveLoop parent fuel next (entryName.bind (strchr separator))

/-- `resolve(path, parent)`. `NULL` passes the test for an absolute path, as `strchr` answers `NULL`
for it. -/
def resolve (path : Option (List UInt8)) (parent : Bool) : Except Fault (Option Entry) :=
  let entryName := path.bind (strchr separator)
  if entryName ≠ path then .ok none
  else some <$> resolveLoop parent ((path.getD []).length + 1) .root entryName

/-! ### Mounts -/

/-- `E_SUCCESS`. -/
abbrev eSuccess : ℤ := 0

/-- `E_NOENT`. -/
abbrev eNoent : ℤ := -2

/-- `E_NOMEM`. -/
abbrev eNomem : ℤ := -12

/-- A `Mount`; its node in the list of mounts is in the links of the state. -/
structure Mount where
  fs : ℕ
  root : Option Entry
  deriving DecidableEq, Repr

/-- The objects of `m_mountsCache` and of `m_entriesCache` in use, what the former hold, and the
links of `m_mounts`, whose head is `none`. -/
structure State where
  mounts : List ℕ
  entries : List ℕ
  mount : ℕ → Mount
  links : Links (Option ℕ)

/-- What a call of `Cache_malloc` answers, given the objects of the cache that are in use: an object
that is not, or `NULL`. -/
structure CacheMalloc where
  answer : List ℕ → Option ℕ
  unused : ∀ used ptr, answer used = some ptr → ptr ∉ used

/-- The arguments of `VFS_mount`, and the answers to its allocations. -/
structure Request where
  fs : ℕ
  path : Option (List UInt8)
  mountMalloc : CacheMalloc
  entryMalloc : CacheMalloc

/-- `mount->root = root`: a store to the record of a mount. -/
def State.setRoot (s : State) (mount : ℕ) (root : Option Entry) : State :=
  { s with mount := Function.update s.mount mount { s.mount mount with root := root } }

/-- `mount->fs = fs`: a store to the record of a mount. -/
def State.setFs (s : State) (mount : ℕ) (fs : ℕ) : State :=
  { s with mount := Function.update s.mount mount { s.mount mount with fs := fs } }

/-- `VFS_mount(fs, path)`: resolves the path, allocates a mount and an entry, and links the
mount in. -/
def vfsMount (s : State) (r : Request) : Except Fault (ℤ × State) := do
  let mountRoot ← resolve r.path false
  if mountRoot = none then return (eNoent, s)
  match r.mountMalloc.answer s.mounts with
  | none => return (eNomem, s)
  | some mount =>
      let s := { s with mounts := s.mounts ++ [mount] }
      match r.entryMalloc.answer s.entries with
      | none =>
          let s := s.setRoot mount none
          return (eNomem, { s with mounts := s.mounts.erase mount })
      | some entry =>
          let s := { s with entries := s.entries ++ [entry] }
          let s := s.setRoot mount (some (.object entry))
          let s := (s.setFs mount r.fs).setRoot mount mountRoot
          let links ← pushBack s.links none (some mount)
          return (eSuccess, { s with links := links })

/-- Several requests, and their results. -/
def mountAll : List Request → State → Except Fault (List ℤ × State)
  | [], s => .ok ([], s)
  | r :: rest, s => do
      let (code, s) ← vfsMount s r
      let (codes, s) ← mountAll rest s
      return (code :: codes, s)

/-- The state before any request: `LIST_STATIC_INIT(m_mounts)`. -/
def start : State where
  mounts := []
  entries := []
  mount := fun _ => ⟨0, none⟩
  links := init ⟨fun _ => none, fun _ => none⟩ none

/-! ### Resolving -/

/-- What is left of a path from a character on begins with it and is no longer than the
path. -/
theorem strchr_eq_some {chr : UInt8} {str found : List UInt8} (h : strchr chr str = some found) :
    found.head? = some chr ∧ found.length ≤ str.length := by
  induction str with
  | nil => simp [strchr] at h
  | cons c rest ih =>
      rw [strchr] at h
      split at h
      case isTrue hc =>
        obtain rfl := Option.some.inj h
        exact ⟨congrArg some hc, le_rfl⟩
      case isFalse =>
        obtain ⟨hhead, hlength⟩ := ih h
        exact ⟨hhead, hlength.trans (Nat.le_succ _)⟩

/-- A path starts where its first separator is exactly when it is absolute. -/
theorem strchr_eq_self {chr : UInt8} {str : List UInt8} :
    strchr chr str = some str ↔ str.head? = some chr := by
  refine ⟨fun h => (strchr_eq_some h).1, fun h => ?_⟩
  cases str with
  | nil => simp at h
  | cons c rest => rw [strchr, if_pos (Option.some.inj h)]

/-- What is left of a path behind its separators is no longer than the path. -/
theorem nextNonSeparator_length {path left : List UInt8} (h : nextNonSeparator path = some left) :
    left.length ≤ path.length := by
  induction path with
  | nil => simp [nextNonSeparator] at h
  | cons c rest ih =>
      rw [nextNonSeparator] at h
      split at h
      case isTrue => exact (ih h).trans (Nat.le_succ _)
      case isFalse =>
        obtain rfl := Option.some.inj h
        exact le_rfl

/-- What is left of a path that starts with a separator is shorter than the path. -/
theorem nextNonSeparator_lt {path left : List UInt8} (hpath : path.head? = some separator)
    (h : nextNonSeparator path = some left) : left.length < path.length := by
  cases path with
  | nil => simp at hpath
  | cons c rest =>
      rw [nextNonSeparator, if_pos (Option.some.inj hpath)] at h
      exact Nat.lt_succ_of_le (nextNonSeparator_length h)

/-- A component that is looked up is the entry itself, and another one follows. -/
theorem subdir_eq_some {cur next : Entry} {path : Option (List UInt8)}
    (h : subdir cur path = some next) :
    next = cur ∧ ∃ str left, path = some str ∧ strchr separator str = some left := by
  rw [subdir] at h
  split at h
  case h_1 => simp at h
  case h_2 left hleft =>
    obtain ⟨str, rfl, hstr⟩ := Option.bind_eq_some_iff.mp hleft
    split at h
    case isTrue => simp at h
    case isFalse => exact ⟨(Option.some.inj h).symm, str, left, rfl, hstr⟩

/-- **The loop ends**, with the entry at which it starts: each round is left with a shorter path
that starts with a separator. -/
theorem resolveLoop_spec (parent : Bool) {fuel : ℕ} {cur : Entry} {name : List UInt8}
    (hname : name.head? = some separator) (hfuel : name.length < fuel) :
    resolveLoop parent fuel cur (some name) = .ok cur := by
  induction fuel generalizing name with
  | zero => omega
  | succ fuel ih =>
      simp only [resolveLoop, ite_self]
      cases hnext : subdir cur (nextNonSeparator name) with
      | none => rfl
      | some next =>
          obtain ⟨rfl, str, left, hstr, hleft⟩ := subdir_eq_some hnext
          obtain ⟨hhead, hlength⟩ := strchr_eq_some hleft
          have hshorter := nextNonSeparator_lt hname hstr
          simp only [hstr, Option.bind_some, hleft]
          exact ih hhead (by omega)

/-- **What a path is resolved to**: an absolute path to the root, any other to nothing. -/
theorem resolve_spec (path : List UInt8) (parent : Bool) : resolve (some path) parent =
    .ok (if path.head? = some separator then some .root else none) := by
  rw [resolve]
  by_cases hpath : path.head? = some separator
  · have hself := strchr_eq_self.mpr hpath
    simp only [Option.bind_some, Option.getD_some, hself, ne_eq, not_true_eq_false, if_false,
      if_pos hpath]
    rw [resolveLoop_spec parent hpath (Nat.lt_succ_self _)]
    rfl
  · rw [Option.bind_some, if_pos (mt strchr_eq_self.mp hpath), if_neg hpath]

/-- **Resolving `NULL`** reads at `NULL`, in `nextNonSeparator`. -/
theorem resolve_null (parent : Bool) : resolve none parent = .error .wild := rfl

/-! ### Runs -/

/-- **The state represents filesystems that were mounted**, in this order: the list of mounts has
one mount of each, on the root; and one entry for each is in use that no mount refers to. -/
structure Represents (s : State) (mounted : List ℕ) : Prop where
  ring : s.links.Ring none (s.mounts.map some)
  shown : s.mounts.map s.mount = mounted.map fun fs => ⟨fs, some .root⟩
  lost : s.entries.length = mounted.length

/-- At the start, with nothing mounted, the lists represent the empty table of mounts. -/
theorem represents_start : Represents start [] :=
  ⟨(init_spec _ _).1, rfl, rfl⟩

/-- No mount refers to an object of the cache of entries. -/
theorem Represents.unreferenced {s : State} {mounted : List ℕ} (h : Represents s mounted) {m : ℕ}
    (hm : m ∈ s.mounts) (entry : ℕ) : (s.mount m).root ≠ some (.object entry) := by
  have hmem : s.mount m ∈ mounted.map fun fs => (⟨fs, some .root⟩ : Mount) :=
    h.shown ▸ List.mem_map_of_mem hm
  obtain ⟨fs, -, hfs⟩ := List.mem_map.mp hmem
  rw [← hfs]
  simp

/-- What an object holds that is not in use does not matter. -/
theorem map_update_of_notMem {l : List ℕ} {f : ℕ → Mount} {m : ℕ} (hm : m ∉ l) (v : Mount) :
    l.map (Function.update f m v) = l.map f :=
  List.map_congr_left fun _ hx => Function.update_of_ne (ne_of_mem_of_not_mem hx hm) _ _

/-- **One request** with a path: it fails and what is mounted stays, or the filesystem is mounted
last. -/
theorem Represents.vfsMount {s : State} {mounted : List ℕ} (h : Represents s mounted)
    (r : Request) {path : List UInt8} (hr : r.path = some path) :
    ∃ code s', vfsMount s r = .ok (code, s') ∧
      Represents s' (mounted ++ if code = eSuccess then [r.fs] else []) ∧
      (code = eNoent ↔ r.path.bind List.head? ≠ some separator) := by
  simp only [VFS.vfsMount, hr, resolve_spec, Option.bind_some]
  by_cases hpath : path.head? = some separator
  · simp only [hpath, if_true, bind, Except.bind, reduceCtorEq, if_false]
    cases hmount : r.mountMalloc.answer s.mounts with
    | none =>
        refine ⟨eNomem, s, rfl, ?_, by simp⟩
        simpa using h
    | some mount =>
        have hunused := r.mountMalloc.unused _ _ hmount
        cases hentry : r.entryMalloc.answer s.entries with
        | none =>
            refine ⟨eNomem, _, rfl, ?_, by simp⟩
            have herase : (s.mounts ++ [mount]).erase mount = s.mounts := by
              rw [List.erase_append_right _ hunused, List.erase_cons_head, List.append_nil]
            refine ⟨?_, ?_, ?_⟩
            · simpa [State.setRoot, herase] using h.ring
            · simpa [State.setRoot, herase, map_update_of_notMem hunused] using h.shown
            · simpa [State.setRoot] using h.lost
        | some entry =>
            have hnew : some mount ∉ none :: s.mounts.map some := by simpa using hunused
            obtain ⟨links, hpush, hring, -⟩ := pushBack_spec h.ring hnew
            simp only [State.setRoot, State.setFs, hpush]
            refine ⟨eSuccess, _, rfl, ⟨?_, ?_, ?_⟩, by simp⟩
            · simpa using hring
            · simp [map_update_of_notMem hunused, h.shown]
            · simp [h.lost]
  · refine ⟨eNoent, s, by rw [if_neg hpath]; rfl, ?_, by simpa using hpath⟩
    simpa using h

/-- The filesystems of the requests that succeeded. -/
def mountedBy (rs : List Request) (codes : List ℤ) : List ℕ :=
  ((rs.zip codes).filter fun rc => rc.2 = eSuccess).map fun rc => rc.1.fs

/-- A request with `NULL` for the path reads at `NULL`. -/
theorem vfsMount_null (s : State) {r : Request} (hr : r.path = none) :
    vfsMount s r = .error .wild := by
  rw [VFS.vfsMount, hr, resolve_null]
  rfl

/-- Requests from a state that represents what is mounted: with `NULL` for one of the paths
they read at `NULL`; otherwise the filesystems of those that succeed are mounted behind the
others. -/
theorem Represents.mountAll {s : State} {mounted : List ℕ} (h : Represents s mounted)
    (rs : List Request) :
    ((∃ r ∈ rs, r.path = none) → mountAll rs s = .error .wild) ∧
      ((∀ r ∈ rs, r.path ≠ none) → ∃ codes s', mountAll rs s = .ok (codes, s') ∧
        Represents s' (mounted ++ mountedBy rs codes) ∧
        List.Forall₂ (fun r code => code = eNoent ↔ r.path.bind List.head? ≠ some separator)
          rs codes) := by
  induction rs generalizing s mounted with
  | nil => exact ⟨by simp, fun _ => ⟨[], s, rfl, by simpa [mountedBy] using h, .nil⟩⟩
  | cons r rest ih =>
      cases hr : r.path with
      | none =>
          refine ⟨fun _ => ?_, fun hall => absurd hr (hall r List.mem_cons_self)⟩
          rw [VFS.mountAll, vfsMount_null s hr]
          rfl
      | some path =>
          obtain ⟨code, s₁, hmount, hone, hcode⟩ := h.vfsMount r hr
          have hstep : VFS.mountAll (r :: rest) s = (do
              let (codes, s) ← VFS.mountAll rest s₁
              return (code :: codes, s)) := by
            rw [VFS.mountAll, hmount]
            rfl
          obtain ⟨hnull, hrest⟩ := ih hone
          constructor
          · rintro ⟨r', hr', hpath⟩
            rcases List.mem_cons.mp hr' with rfl | hr'
            · exact absurd (hr.symm.trans hpath) (by simp)
            · rw [hstep, hnull ⟨r', hr', hpath⟩]
              rfl
          · intro hall
            obtain ⟨codes, s', hrun, hrepresents, hcodes⟩ :=
              hrest fun r' hr' => hall r' (List.mem_cons_of_mem _ hr')
            refine ⟨code :: codes, s', by rw [hstep, hrun]; rfl, ?_, hcodes.cons hcode⟩
            have hmounted : mountedBy (r :: rest) (code :: codes) =
                (if code = eSuccess then [r.fs] else []) ++ mountedBy rest codes := by
              by_cases hsuccess : code = eSuccess <;> simp [mountedBy, hsuccess]
            rw [hmounted, ← List.append_assoc]
            exact hrepresents

/-- **After any requests** with paths the mounts are those of the requests that succeeded, in
their order, all of them on the root. Each has lost an entry: it stays in use, and no mount
refers to it. The result is `E_NOENT` for exactly the paths that are not absolute. With `NULL`
for one of the paths the requests read at `NULL`. -/
theorem mounts_run (rs : List Request) :
    ((∃ r ∈ rs, r.path = none) → mountAll rs start = .error .wild) ∧
      ((∀ r ∈ rs, r.path ≠ none) → ∃ codes s, mountAll rs start = .ok (codes, s) ∧
        Represents s (mountedBy rs codes) ∧
        (∀ m ∈ s.mounts, ∀ entry ∈ s.entries, (s.mount m).root ≠ some (.object entry)) ∧
        List.Forall₂ (fun r code => code = eNoent ↔ r.path.bind List.head? ≠ some separator)
          rs codes) := by
  obtain ⟨hnull, hpaths⟩ := represents_start.mountAll rs
  refine ⟨hnull, fun hall => ?_⟩
  obtain ⟨codes, s, hmount, hrepresents, hcodes⟩ := hpaths hall
  exact ⟨codes, s, hmount, hrepresents, fun m hm entry _ => hrepresents.unreferenced hm entry,
    hcodes⟩

end MugOS.VFS

import Mathlib.Data.List.Chain
import Mathlib.Data.List.Nodup

/-! # Concurrent updates of a manifest in a blobstore

`blobstoreManifest.Update(lastLock, newContents)` reads and parses the manifest
with its version, and, when the lock it read is `lastLock`, writes `newContents`
with a `CheckAndPut` on the version read. On a failed `CheckAndPut` it returns
the manifest it read, and so it does when the lock differs.

The blobstore is a versioned cell: `Get` returns the bytes and their version,
and `CheckAndPut` writes, under a new version, iff the stored version is the
given one. Several clients run `Update` at once; each blobstore call is one
atomic step, and a schedule picks whose step comes next and whether the call
fails with an I/O error. The world records, as ghost state, every write with
what its writer had read.

Every write replaces the very manifest its writer read, so the stored manifests
form a chain in which every writer had read its predecessor (no lost update),
and only calls that return `newContents` write. A call can also return a
manifest equal to `newContents` without writing: when another client had
already stored that manifest. Each call writes at most once, and the blobstore
a run leaves is the one the writing calls leave when each runs alone, in the
order of their writes. A lost `CheckAndPut` race is not an error. A blobstore
without a readable manifest, missing or unparsable, stays as it is: every call
fails, so `Update` neither creates nor repairs a manifest.
-/

namespace Dolt.Nbs

/-- Modelled from the spec: the fields of a manifest that `Update` reads; `root` stands for the
others. -/
structure manifestContents where
  lock : Nat
  root : Nat
  deriving DecidableEq, Repr

inductive BlobstoreError where
  | notFound
  | parse
  | checkAndPut
  | io
  deriving DecidableEq, Repr

/-- Modelled: the bytes under the key `manifest`, as `parseManifest` and `writeManifest`, absent
from src/, see them: what `writeManifest` wrote for a manifest, or bytes that do not parse. -/
inductive ManifestBytes where
  | written (contents : manifestContents)
  | unparsable
  deriving DecidableEq, Repr

/-- Modelled: `parseManifest`, absent from src/. -/
def parseManifest : ManifestBytes → Except BlobstoreError manifestContents
  | .written contents => .ok contents
  | .unparsable => .error .parse

/-- Modelled from the spec: the blobstore at the key `manifest`, as a versioned cell: absent, or
its version and the bytes it holds. -/
abbrev Blobstore := Option (Nat × ManifestBytes)

/-- `manifestVersionAndContents`: `bs.Get`, then `parseManifest`. -/
def manifestVersionAndContents (bs : Blobstore) : Except BlobstoreError (Nat × manifestContents) :=
  match bs with
  | none => .error .notFound
  | some (ver, bytes) =>
    match parseManifest bytes with
    | .ok contents => .ok (ver, contents)
    | .error err => .error err

/-- Modelled from the spec: `CheckAndPut(ver, manifestFile, ...)` writes, under a new version,
iff the stored version is `ver`. -/
def CheckAndPut (bs : Blobstore) (ver : Nat) (contents : manifestContents) :
    Except BlobstoreError Blobstore :=
  match bs with
  | some (cur, _) =>
    if cur = ver then .ok (some (cur + 1, .written contents)) else .error .checkAndPut
  | none => .error .checkAndPut

instance instDecidableEqUpdateResult : DecidableEq (Except BlobstoreError manifestContents)
  | .ok a, .ok b => decidable_of_iff (a = b) ⟨congrArg _, Except.ok.inj⟩
  | .error a, .error b => decidable_of_iff (a = b) ⟨congrArg _, Except.error.inj⟩
  | .ok _, .error _ => isFalse Except.noConfusion
  | .error _, .ok _ => isFalse Except.noConfusion

inductive Env where
  | ok
  | ioError
  deriving DecidableEq, Repr

/-- `blobstoreManifest.Update`, run alone: the `Get`, then, when the lock read is `lastLock`,
the `CheckAndPut` on the version read. -/
def Update (lastLock : Nat) (newContents : manifestContents) (getEnv putEnv : Env)
    (bs : Blobstore) : Except BlobstoreError manifestContents × Blobstore :=
  match getEnv, manifestVersionAndContents bs with
  | .ioError, _ => (.error .io, bs)
  | .ok, .error err => (.error err, bs)
  | .ok, .ok (ver, contents) =>
    if contents.lock = lastLock then
      match putEnv, CheckAndPut bs ver newContents with
      | .ioError, _ => (.error .io, bs)
      | .ok, .ok bs' => (.ok newContents, bs')
      | .ok, .error _ => (.ok contents, bs)
    else (.ok contents, bs)

inductive Phase where
  | start
  | read (ver : Nat) (contents : manifestContents)
  | returned (result : Except BlobstoreError manifestContents)
  deriving DecidableEq, Repr

/-- One atomic step of `Update`: the `Get`, or the lock check with the `CheckAndPut` it guards. -/
def updateStep (lastLock : Nat) (newContents : manifestContents) (env : Env) (bs : Blobstore) :
    Phase → Phase × Blobstore
  | .start =>
    match env, manifestVersionAndContents bs with
    | .ioError, _ => (.returned (.error .io), bs)
    | .ok, .error err => (.returned (.error err), bs)
    | .ok, .ok (ver, contents) => (.read ver contents, bs)
  | .read ver contents =>
    if contents.lock = lastLock then
      match env, CheckAndPut bs ver newContents with
      | .ioError, _ => (.returned (.error .io), bs)
      | .ok, .ok bs' => (.returned (.ok newContents), bs')
      | .ok, .error _ => (.returned (.ok contents), bs)
    else (.returned (.ok contents), bs)
  | .returned result => (.returned result, bs)

/-- With no step of another client in between, the two steps of a call are `Update`. -/
theorem updateStep_updateStep (lastLock : Nat) (newContents : manifestContents)
    (getEnv putEnv : Env) (bs : Blobstore) :
    let (phase, bs₁) := updateStep lastLock newContents getEnv bs .start
    (updateStep lastLock newContents putEnv bs₁ phase).1 =
        .returned (Update lastLock newContents getEnv putEnv bs).1 ∧
      (updateStep lastLock newContents putEnv bs₁ phase).2 =
        (Update lastLock newContents getEnv putEnv bs).2 := by
  rcases bs with _ | ⟨ver, contents | _⟩ <;> cases getEnv <;> try exact ⟨rfl, rfl⟩
  cases putEnv <;> dsimp only [updateStep, Update, manifestVersionAndContents, parseManifest] <;>
    split <;> simp [CheckAndPut]

structure Client where
  lastLock : Nat
  newContents : manifestContents
  phase : Phase
  deriving DecidableEq, Repr

/-- Ghost: a `CheckAndPut` that wrote, by which client, with the manifest its writer had read,
the one it replaced, and the one it wrote. -/
structure Write where
  client : Nat
  read : manifestContents
  replaced : ManifestBytes
  written : manifestContents
  deriving DecidableEq, Repr

structure World where
  bs : Blobstore
  clients : List Client
  writes : List Write
  deriving DecidableEq, Repr

def World.init (bs : Blobstore) (calls : List (Nat × manifestContents)) : World :=
  ⟨bs, calls.map fun (lastLock, newContents) => ⟨lastLock, newContents, .start⟩, []⟩

def writeOf (i : Nat) (phase : Phase) (bs bs' : Blobstore) : List Write :=
  match phase, bs, bs' with
  | .read _ contents, some (_, replaced), some (_, .written written) =>
    if bs' ≠ bs then [⟨i, contents, replaced, written⟩] else []
  | _, _, _ => []

def World.step (w : World) (i : Nat) (env : Env) : World :=
  match w.clients[i]? with
  | none => w
  | some c =>
    let (phase, bs) := updateStep c.lastLock c.newContents env w.bs c.phase
    ⟨bs, w.clients.set i { c with phase }, w.writes ++ writeOf i c.phase w.bs bs⟩

def World.run (w : World) : List (Nat × Env) → World
  | [] => w
  | (i, env) :: sched => (w.step i env).run sched

/-- The steps of `Update` that leave the blobstore as it is. -/
inductive Quiet (bs : Blobstore) : Phase → Phase → Prop
  | get {ver contents} : bs = some (ver, .written contents) → Quiet bs .start (.read ver contents)
  | getFails {err} : Quiet bs .start (.returned (.error err))
  | returnsRead {ver contents} : Quiet bs (.read ver contents) (.returned (.ok contents))
  | putFails {ver contents err} : Quiet bs (.read ver contents) (.returned (.error err))
  | done {result} : Quiet bs (.returned result) (.returned result)

theorem updateStep_cases {lastLock : Nat} {newContents : manifestContents} {env : Env}
    {bs bs' : Blobstore} {phase phase' : Phase}
    (h : updateStep lastLock newContents env bs phase = (phase', bs')) :
    (bs' = bs ∧ Quiet bs phase phase') ∨
      ∃ ver contents m, phase = .read ver contents ∧ contents.lock = lastLock ∧
        bs = some (ver, m) ∧ bs' = some (ver + 1, .written newContents) ∧
        phase' = .returned (.ok newContents) := by
  cases phase with
  | start =>
    left
    cases env <;> rcases bs with _ | ⟨ver, contents | _⟩ <;>
      simp only [updateStep, manifestVersionAndContents, parseManifest, Prod.mk.injEq] at h <;>
      obtain ⟨rfl, rfl⟩ := h
    exacts [⟨rfl, .getFails⟩, ⟨rfl, .get rfl⟩, ⟨rfl, .getFails⟩, ⟨rfl, .getFails⟩,
      ⟨rfl, .getFails⟩, ⟨rfl, .getFails⟩]
  | read ver contents =>
    simp only [updateStep] at h
    split at h
    · rename_i hlock
      cases env
      · rcases hc : CheckAndPut bs ver newContents with err | bs₁ <;> rw [hc] at h <;>
          simp only [Prod.mk.injEq] at h <;> obtain ⟨rfl, rfl⟩ := h
        · exact .inl ⟨rfl, .returnsRead⟩
        · right
          rcases bs with _ | ⟨cur, m⟩
          · simp [CheckAndPut] at hc
          · simp only [CheckAndPut] at hc
            split at hc
            · cases hc
              exact ⟨ver, contents, m, rfl, hlock, by simp_all, by simp_all, rfl⟩
            · cases hc
      · simp only [Prod.mk.injEq] at h
        obtain ⟨rfl, rfl⟩ := h
        exact .inl ⟨rfl, .putFails⟩
    · simp only [Prod.mk.injEq] at h
      obtain ⟨rfl, rfl⟩ := h
      exact .inl ⟨rfl, .returnsRead⟩
  | returned result =>
    simp only [updateStep, Prod.mk.injEq] at h
    obtain ⟨rfl, rfl⟩ := h
    exact .inl ⟨rfl, .done⟩

theorem writeOf_self (i : Nat) (phase : Phase) (bs : Blobstore) : writeOf i phase bs bs = [] := by
  unfold writeOf
  split <;> simp

theorem World.step_cases (w : World) (i : Nat) (env : Env) :
    w.step i env = w ∨
      (∃ c phase', w.clients[i]? = some c ∧ Quiet w.bs c.phase phase' ∧
        w.step i env = ⟨w.bs, w.clients.set i { c with phase := phase' }, w.writes⟩) ∨
      ∃ c ver contents m, w.clients[i]? = some c ∧ c.phase = .read ver contents ∧
        contents.lock = c.lastLock ∧ w.bs = some (ver, m) ∧
        w.step i env = ⟨some (ver + 1, .written c.newContents),
          w.clients.set i { c with phase := .returned (.ok c.newContents) },
          w.writes ++ [⟨i, contents, m, c.newContents⟩]⟩ := by
  unfold World.step
  rcases hc : w.clients[i]? with _ | c
  · exact .inl rfl
  · right
    dsimp only
    rcases hu : updateStep c.lastLock c.newContents env w.bs c.phase with ⟨phase', bs'⟩
    rcases updateStep_cases hu with ⟨rfl, hq⟩ | ⟨ver, contents, m, hph, hlock, hbs, rfl, rfl⟩
    · exact .inl ⟨c, phase', rfl, hq, by rw [writeOf_self, List.append_nil]⟩
    · refine .inr ⟨c, ver, contents, m, rfl, hph, hlock, hbs, ?_⟩
      simp [hph, hbs, writeOf]

theorem Quiet.of_returned {bs : Blobstore} {result : Except BlobstoreError manifestContents}
    {phase' : Phase} (hq : Quiet bs (.returned result) phase') : phase' = .returned result := by
  cases hq
  rfl

theorem Quiet.to_read {bs : Blobstore} {phase : Phase} {ver : Nat} {contents : manifestContents}
    (hq : Quiet bs phase (.read ver contents)) : bs = some (ver, .written contents) := by
  cases hq
  assumption

theorem Quiet.to_returned_ok {bs : Blobstore} {phase : Phase} {r : manifestContents}
    (hq : Quiet bs phase (.returned (.ok r))) :
    (∃ ver, phase = .read ver r) ∨ phase = .returned (.ok r) := by
  cases hq
  exacts [.inl ⟨_, rfl⟩, .inr rfl]

theorem getElem?_set_cases {l : List α} {i j : Nat} {a b c : α} (h : l[i]? = some a)
    (hj : (l.set i b)[j]? = some c) : (j = i ∧ c = b) ∨ (i ≠ j ∧ l[j]? = some c) := by
  rw [List.getElem?_set] at hj
  split at hj
  · rename_i hij
    subst hij
    rw [if_pos (List.getElem?_eq_some_iff.mp h).1, Option.some.injEq] at hj
    exact .inl ⟨rfl, hj.symm⟩
  · exact .inr ⟨‹_›, hj⟩

/-- Every manifest the blobstore has held, oldest first: the bytes it held before any step, if
any, then what each write wrote. -/
def World.stored (held : List ManifestBytes) (w : World) : List ManifestBytes :=
  held ++ w.writes.map (.written ·.written)

theorem World.stored_write (held : List ManifestBytes) (bs : Blobstore) (clients : List Client)
    (writes : List Write) (wr : Write) :
    World.stored held ⟨bs, clients, writes ++ [wr]⟩ =
      World.stored held ⟨bs, clients, writes⟩ ++ [.written wr.written] := by
  simp [World.stored]

/-- What the lock check and the `CheckAndPut` on the version read guarantee together, given
the bytes the blobstore `held` before any step. -/
structure World.Safe (held : List ManifestBytes) (w : World) : Prop where
  write_by : ∀ wr ∈ w.writes, wr.replaced = .written wr.read ∧ ∃ c, w.clients[wr.client]? = some c ∧
    wr.read.lock = c.lastLock ∧ wr.written = c.newContents ∧
    c.phase = .returned (.ok c.newContents)
  first : ∀ wr ∈ w.writes.head?, wr.replaced ∈ held.getLast?
  chain : w.writes.Chain' fun a b => b.replaced = .written a.written
  current : ∀ ver m, w.bs = some (ver, m) → (w.stored held).getLast? = some m
  returned_stored : ∀ i c r, w.clients[i]? = some c → c.phase = .returned (.ok r) →
    (∀ wr ∈ w.writes, wr.client ≠ i) → .written r ∈ w.stored held

/-- The invariant behind `World.Safe`: a client between its `Get` and its lock check read a
manifest the blobstore held, under a version no newer than the stored one, and while that
version is stored, the stored bytes are the manifest it read. -/
structure World.Inv (held : List ManifestBytes) (w : World) extends World.Safe held w :
    Prop where
  read_current : ∀ (i : Nat) (c : Client) ver contents, w.clients[i]? = some c →
    c.phase = .read ver contents →
    .written contents ∈ w.stored held ∧
      ∃ cur m, w.bs = some (cur, m) ∧ ver ≤ cur ∧ (cur = ver → m = .written contents)

theorem World.Inv.init (bs : Blobstore) (calls : List (Nat × manifestContents)) :
    (World.init bs calls).Inv (bs.map Prod.snd).toList where
  write_by := by simp [World.init]
  first := by simp [World.init]
  chain := List.chain'_nil
  current ver m h := by simp_all [World.init, World.stored]
  returned_stored i c r hc hr := by
    simp only [World.init, List.getElem?_map, Option.map_eq_some'] at hc
    obtain ⟨_, -, rfl⟩ := hc
    cases hr
  read_current i c ver contents hc hr := by
    simp only [World.init, List.getElem?_map, Option.map_eq_some'] at hc
    obtain ⟨_, -, rfl⟩ := hc
    cases hr

theorem World.Inv.read_eq {held : List ManifestBytes} {w : World} (h : w.Inv held) {i : Nat}
    {c : Client} {ver : Nat} {contents : manifestContents} {m : ManifestBytes}
    (hc : w.clients[i]? = some c) (hph : c.phase = .read ver contents)
    (hbs : w.bs = some (ver, m)) : m = .written contents := by
  obtain ⟨-, cur, m', hbs', -, hcur⟩ := h.read_current i c ver contents hc hph
  rw [hbs, Option.some.injEq, Prod.mk.injEq] at hbs'
  obtain ⟨rfl, rfl⟩ := hbs'
  exact hcur rfl

theorem World.Inv.quiet {held : List ManifestBytes} {w : World} (h : w.Inv held) {i : Nat}
    {c : Client} {phase' : Phase} (hc : w.clients[i]? = some c) (hq : Quiet w.bs c.phase phase') :
    World.Inv held ⟨w.bs, w.clients.set i { c with phase := phase' }, w.writes⟩ where
  write_by wr hwr := by
    obtain ⟨hrd, c₀, hc₀, hlock, hwritten, hph⟩ := h.write_by wr hwr
    refine ⟨hrd, ?_⟩
    by_cases hi : i = wr.client
    · subst hi
      obtain rfl : c₀ = c := Option.some.inj (hc₀.symm.trans hc)
      rw [hph] at hq
      refine ⟨_, List.getElem?_set_self (List.getElem?_eq_some_iff.mp hc).1, hlock, hwritten, ?_⟩
      exact hq.of_returned
    · exact ⟨c₀, by rw [List.getElem?_set_ne hi, hc₀], hlock, hwritten, hph⟩
  first := h.first
  chain := h.chain
  current := h.current
  returned_stored j c' r hc' hr hno := by
    rcases getElem?_set_cases hc hc' with ⟨rfl, rfl⟩ | ⟨-, hc'⟩
    · dsimp only at hr
      subst hr
      rcases hq.to_returned_ok with ⟨ver, hread⟩ | hret
      · exact (h.read_current _ c ver r hc hread).1
      · exact h.returned_stored _ c r hc hret hno
    · exact h.returned_stored j c' r hc' hr hno
  read_current j c' ver contents hc' hr := by
    rcases getElem?_set_cases hc hc' with ⟨rfl, rfl⟩ | ⟨-, hc'⟩
    · dsimp only at hr
      subst hr
      have hbs := hq.to_read
      exact ⟨List.mem_of_mem_getLast? (h.current ver _ hbs), ver, _, hbs, le_rfl, fun _ => rfl⟩
    · exact h.read_current j c' ver contents hc' hr

theorem World.Inv.write {held : List ManifestBytes} {w : World} (h : w.Inv held) {i : Nat}
    {c : Client} {ver : Nat} {contents : manifestContents} {m : ManifestBytes}
    (hc : w.clients[i]? = some c) (hph : c.phase = .read ver contents)
    (hlock : contents.lock = c.lastLock) (hbs : w.bs = some (ver, m)) :
    World.Inv held ⟨some (ver + 1, .written c.newContents),
      w.clients.set i { c with phase := .returned (.ok c.newContents) },
      w.writes ++ [⟨i, contents, m, c.newContents⟩]⟩ := by
  have hm := h.read_eq hc hph hbs
  have hlast := h.current ver m hbs
  have hsub : ∀ x ∈ w.stored held, x ∈ World.stored held ⟨some (ver + 1, .written c.newContents),
      w.clients.set i { c with phase := .returned (.ok c.newContents) },
      w.writes ++ [⟨i, contents, m, c.newContents⟩]⟩ := fun x hx => by
    rw [World.stored_write]; exact List.mem_append_left _ hx
  refine ⟨⟨?_, ?_, ?_, ?_, ?_⟩, ?_⟩
  · -- write_by: no earlier write is by `i`, whose call had not returned
    intro wr hwr
    rcases List.mem_append.mp hwr with hwr | hwr
    · obtain ⟨hrd, c₀, hc₀, hlock₀, hwritten, hph₀⟩ := h.write_by wr hwr
      have hi : i ≠ wr.client := by
        rintro rfl
        rw [hc, Option.some.injEq] at hc₀
        rw [← hc₀, hph] at hph₀
        cases hph₀
      exact ⟨hrd, c₀, by rw [List.getElem?_set_ne hi, hc₀], hlock₀, hwritten, hph₀⟩
    · rw [List.mem_singleton] at hwr
      subst hwr
      exact ⟨hm, _, List.getElem?_set_self (List.getElem?_eq_some_iff.mp hc).1, hlock, rfl, rfl⟩
  · -- first
    intro wr hwr
    cases hw : w.writes with
    | nil =>
      simp only [hw, List.nil_append, List.head?_cons, Option.mem_def, Option.some.injEq] at hwr
      subst hwr
      simpa [World.stored, hw] using hlast
    | cons wr₀ ws => exact h.first wr (by simpa [hw] using hwr)
  · -- chain: the write replaced the manifest the last write wrote
    refine List.chain'_append.mpr ⟨h.chain, List.chain'_singleton _, fun x hx y hy => ?_⟩
    simp only [List.head?_cons, Option.mem_def, Option.some.injEq] at hy
    subst hy
    simp only [World.stored, List.getLast?_append, List.getLast?_map, Option.mem_def.mp hx,
      Option.map_some', Option.or_some, Option.some.injEq] at hlast
    exact hlast.symm
  · -- current
    intro ver' m' hbs'
    rw [Option.some.injEq, Prod.mk.injEq] at hbs'
    rw [World.stored_write, List.getLast?_concat, ← hbs'.2]
  · -- returned_stored
    intro j c' r hc' hr hno
    rcases getElem?_set_cases hc hc' with ⟨rfl, -⟩ | ⟨-, hc'⟩
    · exact absurd rfl (hno _ (List.mem_append_right _ (List.mem_singleton_self _)))
    · exact hsub _ (h.returned_stored j c' r hc' hr fun wr hwr =>
        hno wr (List.mem_append_left _ hwr))
  · -- read_current: other readers now read an older version than the stored one
    intro j c' ver' contents' hc' hr
    rcases getElem?_set_cases hc hc' with ⟨rfl, rfl⟩ | ⟨-, hc'⟩
    · cases hr
    · obtain ⟨hmem, cur', m'', hbs'', hle, -⟩ := h.read_current j c' ver' contents' hc' hr
      rw [hbs, Option.some.injEq, Prod.mk.injEq] at hbs''
      obtain ⟨rfl, -⟩ := hbs''
      exact ⟨hsub _ hmem, _, _, rfl, by omega, fun h => by omega⟩

theorem World.Inv.step {held : List ManifestBytes} {w : World} (h : w.Inv held) (i : Nat)
    (env : Env) : (w.step i env).Inv held := by
  rcases w.step_cases i env with
    hs | ⟨c, phase', hc, hq, hs⟩ | ⟨c, ver, contents, m, hc, hph, hlock, hbs, hs⟩ <;> rw [hs]
  · exact h
  · exact h.quiet hc hq
  · exact h.write hc hph hlock hbs

theorem World.Inv.run {held : List ManifestBytes} {w : World} (h : w.Inv held) :
    ∀ sched, (w.run sched).Inv held
  | [] => h
  | (i, env) :: sched => (h.step i env).run sched

/-- Over every schedule of any clients' `Update` calls, from any blobstore: every write replaced
the manifest its writer read, whose lock was its writer's `lastLock`, and wrote the
`newContents` its writer returned; the writes form a chain from the first manifest; the
blobstore holds the last one; and a call that returned a manifest without writing returned
one the blobstore had held. -/
theorem update_no_lost_update (bs : Blobstore) (calls : List (Nat × manifestContents))
    (sched : List (Nat × Env)) :
    ((World.init bs calls).run sched).Safe (bs.map Prod.snd).toList :=
  ((World.Inv.init bs calls).run sched).toSafe

/-- Two clients with the same `lastLock` and the same `newContents`: the second reads the
manifest the first wrote, whose lock is not its `lastLock`, and returns it, which is its own
`newContents`, without writing. -/
theorem update_returns_newContents_without_writing :
    ¬ ∀ (bs : Blobstore) (calls : List (Nat × manifestContents)) (sched : List (Nat × Env)) i c,
      ((World.init bs calls).run sched).clients[i]? = some c →
        c.phase = .returned (.ok c.newContents) →
          ∃ wr ∈ ((World.init bs calls).run sched).writes,
            wr.client = i ∧ ∃ m, wr.replaced = .written m ∧ m.lock = c.lastLock := by
  intro h
  obtain ⟨wr, hwr, hi, -⟩ := h (some (0, .written ⟨1, 0⟩)) [(1, ⟨2, 7⟩), (1, ⟨2, 7⟩)]
    [(0, .ok), (0, .ok), (1, .ok), (1, .ok)] 1 ⟨1, ⟨2, 7⟩, .returned (.ok ⟨2, 7⟩)⟩ (by decide) rfl
  have hw : ((World.init (some (0, .written ⟨1, 0⟩)) [(1, ⟨2, 7⟩), (1, ⟨2, 7⟩)]).run
      [(0, .ok), (0, .ok), (1, .ok), (1, .ok)]).writes = [⟨0, ⟨1, 0⟩, .written ⟨1, 0⟩, ⟨2, 7⟩⟩] :=
    rfl
  rw [hw, List.mem_singleton] at hwr
  subst hwr
  cases hi

def World.calls (w : World) : List (Nat × manifestContents) :=
  w.clients.map fun c => (c.lastLock, c.newContents)

theorem map_set_of_getElem? {l : List α} {i : Nat} {a b : α} {f : α → β} (h : l[i]? = some a)
    (hf : f b = f a) : (l.set i b).map f = l.map f := by
  refine List.ext_getElem? fun j => ?_
  rw [List.getElem?_map, List.getElem?_map, List.getElem?_set]
  split
  · subst_vars
    simp [(List.getElem?_eq_some_iff.mp h).1, h, hf]
  · rfl

@[simp] theorem World.calls_step (w : World) (i : Nat) (env : Env) :
    (w.step i env).calls = w.calls := by
  rcases w.step_cases i env with hs | ⟨c, _, hc, _, hs⟩ | ⟨c, _, _, _, hc, _, _, _, hs⟩ <;>
    rw [hs]
  all_goals exact map_set_of_getElem? hc rfl

theorem World.calls_run (w : World) : ∀ sched, (w.run sched).calls = w.calls
  | [] => rfl
  | (i, env) :: sched => by rw [World.run, World.calls_run _ sched, World.calls_step]

theorem World.calls_init (bs : Blobstore) (calls : List (Nat × manifestContents)) :
    (World.init bs calls).calls = calls := by
  simp [World.calls, World.init, Function.comp_def]

theorem World.getElem?_calls {w : World} {i : Nat} {c : Client} (h : w.clients[i]? = some c) :
    w.calls[i]? = some (c.lastLock, c.newContents) := by
  simp [World.calls, h]

def ManifestBytes.manifests : ManifestBytes → List manifestContents
  | .written contents => [contents]
  | .unparsable => []

/-- When the locks of the calls' `newContents` differ from one another and from the first
manifest's, a call returns its `newContents` only if it wrote it. -/
theorem returned_newContents_wrote (bs : Blobstore) (calls : List (Nat × manifestContents))
    (hfresh : (((bs.map Prod.snd).toList.flatMap ManifestBytes.manifests ++
      calls.map Prod.snd).map (·.lock)).Nodup)
    (sched : List (Nat × Env)) {i : Nat} {c : Client}
    (hc : ((World.init bs calls).run sched).clients[i]? = some c)
    (hr : c.phase = .returned (.ok c.newContents)) :
    ∃ wr ∈ ((World.init bs calls).run sched).writes, wr.client = i := by
  have hs := ((World.Inv.init bs calls).run sched).toSafe
  by_contra hno
  push_neg at hno
  rw [List.map_append, List.nodup_append] at hfresh
  obtain ⟨-, hnd, hdisj⟩ := hfresh
  have hlock : ∀ (j : Nat) (c' : Client), ((World.init bs calls).run sched).clients[j]? = some c' →
      ((calls.map Prod.snd).map (·.lock))[j]? = some c'.newContents.lock := fun j c' hc' => by
    rw [← World.calls_init bs calls, ← World.calls_run _ sched]
    simp [World.getElem?_calls hc']
  rcases List.mem_append.mp (hs.returned_stored i c _ hc hr hno) with hheld | hwritten
  · refine hdisj (List.mem_map_of_mem _ (List.mem_flatMap.mpr ⟨_, hheld, ?_⟩))
      (List.getElem?_mem (hlock i c hc))
    exact List.mem_singleton_self _
  · obtain ⟨wr, hwr, hw⟩ := List.mem_map.mp hwritten
    obtain ⟨-, c₀, hc₀, -, hw₀, -⟩ := hs.write_by wr hwr
    have hl := hlock _ _ hc₀
    refine hno wr hwr (List.getElem?_inj (List.getElem?_eq_some_iff.mp hl).1 hnd ?_)
    rw [hl, hlock i c hc, ← hw₀, ManifestBytes.written.inj hw]

/-- One call that writes alone. -/
theorem returned_newContents_wrote_alone :
    ((((some (0, .written ⟨1, 0⟩) : Blobstore).map Prod.snd).toList.flatMap
        ManifestBytes.manifests ++
        [((1 : Nat), (⟨2, 7⟩ : manifestContents))].map Prod.snd).map (·.lock)).Nodup ∧
      ((World.init (some (0, .written ⟨1, 0⟩)) [(1, ⟨2, 7⟩)]).run [(0, .ok), (0, .ok)]).clients[0]? =
        some ⟨1, ⟨2, 7⟩, .returned (.ok ⟨2, 7⟩)⟩ ∧
      ∃ wr ∈ ((World.init (some (0, .written ⟨1, 0⟩)) [(1, ⟨2, 7⟩)]).run
        [(0, .ok), (0, .ok)]).writes, wr.client = 0 :=
  have hfresh : ((((some (0, .written ⟨1, 0⟩) : Blobstore).map Prod.snd).toList.flatMap
      ManifestBytes.manifests ++
      [((1 : Nat), (⟨2, 7⟩ : manifestContents))].map Prod.snd).map (·.lock)).Nodup := by decide
  ⟨hfresh, rfl, returned_newContents_wrote _ _ hfresh _ rfl rfl⟩

/-- The blobstore after each call runs `Update` alone, one after the other, with no I/O error. -/
def sequential (bs : Blobstore) (calls : List (Nat × manifestContents)) : Blobstore :=
  calls.foldl (fun bs call => (Update call.1 call.2 .ok .ok bs).2) bs

theorem sequential_append (bs : Blobstore) (calls calls' : List (Nat × manifestContents)) :
    sequential bs (calls ++ calls') = sequential (sequential bs calls) calls' :=
  List.foldl_append _ _ _ _

def World.writers (w : World) : List (Nat × manifestContents) :=
  w.writes.filterMap fun wr => w.calls[wr.client]?

theorem World.Inv.step_sequential {held : List ManifestBytes} {w : World} (h : w.Inv held)
    {bs₀ : Blobstore} (hseq : w.bs = sequential bs₀ w.writers) (i : Nat) (env : Env) :
    (w.step i env).bs = sequential bs₀ (w.step i env).writers := by
  unfold World.writers
  rw [World.calls_step]
  rcases w.step_cases i env with
    hs | ⟨c, phase', hc, hq, hs⟩ | ⟨c, ver, contents, m, hc, hph, hlock, hbs, hs⟩ <;> rw [hs]
  · exact hseq
  · exact hseq
  · obtain rfl := h.read_eq hc hph hbs
    rw [List.filterMap_append, sequential_append]
    change _ = sequential (sequential bs₀ w.writers) _
    rw [← hseq, hbs]
    simp [World.getElem?_calls hc, sequential, Update, manifestVersionAndContents, parseManifest,
      CheckAndPut, hlock]

/-- Over every schedule, the blobstore is the one the writing calls leave when each runs `Update`
alone, in the order of their writes. -/
theorem run_bs_eq_sequential (bs : Blobstore) (calls : List (Nat × manifestContents))
    (sched : List (Nat × Env)) :
    ((World.init bs calls).run sched).bs =
      sequential bs ((World.init bs calls).run sched).writers := by
  suffices ∀ w : World, w.Inv (bs.map Prod.snd).toList → w.bs = sequential bs w.writers →
      (w.run sched).bs = sequential bs (w.run sched).writers from
    this _ (World.Inv.init bs calls) rfl
  induction sched with
  | nil => exact fun _ _ hseq => hseq
  | cons step sched ih => exact fun w h hseq => ih _ (h.step _ _) (h.step_sequential hseq _ _)

theorem World.Inv.not_written {held : List ManifestBytes} {w : World} (h : w.Inv held)
    {i : Nat} {c : Client} {ver : Nat} {contents : manifestContents} (hc : w.clients[i]? = some c)
    (hph : c.phase = .read ver contents) : i ∉ w.writes.map (·.client) := by
  rintro hi
  obtain ⟨wr, hwr, rfl⟩ := List.mem_map.mp hi
  obtain ⟨-, c₀, hc₀, -, -, hph₀⟩ := h.write_by wr hwr
  rw [hc, Option.some.injEq] at hc₀
  rw [← hc₀, hph] at hph₀
  cases hph₀

theorem World.Inv.step_writes_nodup {held : List ManifestBytes} {w : World} (h : w.Inv held)
    (hn : (w.writes.map (·.client)).Nodup) (i : Nat) (env : Env) :
    ((w.step i env).writes.map (·.client)).Nodup := by
  rcases w.step_cases i env with
    hs | ⟨c, phase', hc, hq, hs⟩ | ⟨c, ver, contents, m, hc, hph, hlock, hbs, hs⟩ <;> rw [hs]
  · exact hn
  · exact hn
  · rw [List.map_append, List.nodup_append]
    exact ⟨hn, List.nodup_singleton _, List.disjoint_singleton.mpr (h.not_written hc hph)⟩

theorem update_writes_at_most_once (bs : Blobstore) (calls : List (Nat × manifestContents))
    (sched : List (Nat × Env)) :
    (((World.init bs calls).run sched).writes.map (·.client)).Nodup := by
  suffices ∀ w : World, w.Inv (bs.map Prod.snd).toList → (w.writes.map (·.client)).Nodup →
      ((w.run sched).writes.map (·.client)).Nodup from
    this _ (World.Inv.init bs calls) List.nodup_nil
  induction sched with
  | nil => exact fun _ _ hn => hn
  | cons step sched ih => exact fun w h hn => ih _ (h.step _ _) (h.step_writes_nodup hn _ _)

/-- The blobstore still holds `b`, nothing was written, and every client is about to call or
returned with an error. -/
structure World.Stuck (b : Blobstore) (w : World) : Prop where
  bs : w.bs = b
  writes : w.writes = []
  failed : ∀ c ∈ w.clients, c.phase = .start ∨ ∃ err, c.phase = .returned (.error err)

theorem World.Stuck.init (b : Blobstore) (calls : List (Nat × manifestContents)) :
    (World.init b calls).Stuck b where
  bs := rfl
  writes := rfl
  failed c hc := by
    simp only [World.init, List.mem_map] at hc
    obtain ⟨_, -, rfl⟩ := hc
    exact .inl rfl

theorem Quiet.of_unreadable {b : Blobstore} (hb : ∀ ver m, b ≠ some (ver, .written m))
    {phase phase' : Phase} (hq : Quiet b phase phase')
    (hph : phase = .start ∨ ∃ err, phase = .returned (.error err)) :
    ∃ err, phase' = .returned (.error err) := by
  cases hq with
  | get hbs => exact absurd hbs (hb _ _)
  | getFails => exact ⟨_, rfl⟩
  | returnsRead | putFails => simp at hph
  | done => simpa using hph

theorem World.Stuck.step {b : Blobstore} (hb : ∀ ver m, b ≠ some (ver, .written m)) {w : World}
    (h : w.Stuck b) (i : Nat) (env : Env) : (w.step i env).Stuck b := by
  rcases w.step_cases i env with
    hs | ⟨c, phase', hc, hq, hs⟩ | ⟨c, ver, contents, m, hc, hph, hlock, hbs, hs⟩ <;> rw [hs]
  · exact h
  · rw [h.bs] at hq
    refine ⟨h.bs, h.writes, fun c' hc' => ?_⟩
    rcases List.mem_or_eq_of_mem_set hc' with hc' | rfl
    · exact h.failed c' hc'
    · exact .inr (hq.of_unreadable hb (h.failed c (List.getElem?_mem hc)))
  · rcases h.failed c (List.getElem?_mem hc) with hs | ⟨err, hs⟩ <;> rw [hph] at hs <;> cases hs

/-- From a blobstore with no readable manifest, every schedule leaves it as it is, writes
nothing, and every call that returned returned an error. -/
theorem World.Stuck.run_init {b : Blobstore} (hb : ∀ ver m, b ≠ some (ver, .written m))
    (calls : List (Nat × manifestContents)) (sched : List (Nat × Env)) :
    ((World.init b calls).run sched).bs = b ∧ ((World.init b calls).run sched).writes = [] ∧
      ∀ c ∈ ((World.init b calls).run sched).clients, ∀ r, c.phase ≠ .returned (.ok r) := by
  suffices ∀ w : World, w.Stuck b → (w.run sched).Stuck b by
    obtain ⟨hbs, hw, hf⟩ := this _ (World.Stuck.init b calls)
    refine ⟨hbs, hw, fun c hc r hr => ?_⟩
    rcases hf c hc with h | ⟨err, h⟩ <;> rw [hr] at h <;> cases h
  induction sched with
  | nil => exact fun _ h => h
  | cons step sched ih => exact fun w h => ih _ (h.step hb _ _)

/-- From a blobstore with no manifest, over every schedule of any clients' `Update` calls, the
manifest stays missing, nothing is written, and every call that returned, returned an error. -/
theorem update_never_creates_manifest (calls : List (Nat × manifestContents))
    (sched : List (Nat × Env)) :
    ((World.init none calls).run sched).bs = none ∧
      ((World.init none calls).run sched).writes = [] ∧
      ∀ c ∈ ((World.init none calls).run sched).clients, ∀ r, c.phase ≠ .returned (.ok r) :=
  World.Stuck.run_init (by simp) calls sched

/-- From a blobstore holding bytes `parseManifest` rejects, over every schedule of any clients'
`Update` calls, the bytes stay, nothing is written, and every call that returned, returned an
error: `Update` reads before it writes, so it never repairs a manifest. -/
theorem update_never_repairs_manifest (ver : Nat) (calls : List (Nat × manifestContents))
    (sched : List (Nat × Env)) :
    ((World.init (some (ver, .unparsable)) calls).run sched).bs = some (ver, .unparsable) ∧
      ((World.init (some (ver, .unparsable)) calls).run sched).writes = [] ∧
      ∀ c ∈ ((World.init (some (ver, .unparsable)) calls).run sched).clients, ∀ r,
        c.phase ≠ .returned (.ok r) :=
  World.Stuck.run_init (by simp) calls sched

theorem updateStep_ok {lastLock : Nat} {newContents : manifestContents} {bs : Blobstore}
    (hbs : ∃ ver m, bs = some (ver, .written m)) {phase : Phase}
    (hph : ∀ err, phase ≠ .returned (.error err)) :
    (∀ err, (updateStep lastLock newContents .ok bs phase).1 ≠ .returned (.error err)) ∧
      ∃ ver m, (updateStep lastLock newContents .ok bs phase).2 = some (ver, .written m) := by
  obtain ⟨cur, m, rfl⟩ := hbs
  cases phase with
  | start =>
    simp only [updateStep, manifestVersionAndContents, parseManifest]
    exact ⟨fun _ => nofun, _, _, rfl⟩
  | read ver contents =>
    simp only [updateStep, CheckAndPut]
    split
    · by_cases hv : cur = ver <;> simp only [hv, if_true, if_false] <;>
        exact ⟨fun _ => nofun, _, _, rfl⟩
    · exact ⟨fun _ => nofun, _, _, rfl⟩
  | returned result => exact ⟨hph, _, _, rfl⟩

structure World.NoFailure (w : World) : Prop where
  bs : ∃ ver m, w.bs = some (ver, .written m)
  ok : ∀ c ∈ w.clients, ∀ err, c.phase ≠ .returned (.error err)

theorem World.NoFailure.step {w : World} (h : w.NoFailure) (i : Nat) :
    (w.step i .ok).NoFailure := by
  unfold World.step
  rcases hc : w.clients[i]? with _ | c
  · exact h
  · obtain ⟨hph, hbs⟩ := @updateStep_ok c.lastLock c.newContents _ h.bs _
      (h.ok c (List.getElem?_mem hc))
    refine ⟨hbs, fun c' hc' => ?_⟩
    rcases List.mem_or_eq_of_mem_set hc' with hc' | rfl
    · exact h.ok c' hc'
    · exact hph

/-- From a blobstore holding a readable manifest, over every schedule in which no blobstore call
has an I/O error, no `Update` call returns an error: a call that loses the `CheckAndPut` race to
another writer returns the manifest it read. -/
theorem update_without_io_errors_never_fails (bs : Blobstore)
    (hbs : ∃ ver m, bs = some (ver, .written m)) (calls : List (Nat × manifestContents))
    (sched : List (Nat × Env)) (hio : ∀ s ∈ sched, s.2 = .ok) :
    ∀ c ∈ ((World.init bs calls).run sched).clients, ∀ err, c.phase ≠ .returned (.error err) := by
  suffices ∀ w : World, w.NoFailure → (w.run sched).NoFailure from
    (this _ ⟨hbs, fun c hc err => by
      simp only [World.init, List.mem_map] at hc
      obtain ⟨_, -, rfl⟩ := hc
      nofun⟩).ok
  induction sched with
  | nil => exact fun _ h => h
  | cons step sched ih =>
    obtain ⟨i, env⟩ := step
    obtain rfl : env = .ok := hio _ (List.mem_cons_self _ _)
    exact fun w h => ih (fun s hs => hio s (List.mem_cons_of_mem _ hs)) _ (h.step i)

/-- Two calls with one `lastLock`: the second loses the race and returns the first's manifest. -/
theorem update_without_io_errors_never_fails_race :
    (∃ ver m, (some (0, .written ⟨1, 0⟩) : Blobstore) = some (ver, .written m)) ∧
      (∀ s ∈ [(0, Env.ok), (1, .ok), (0, .ok), (1, .ok)], s.2 = .ok) ∧
      ∀ c ∈ ((World.init (some (0, .written ⟨1, 0⟩)) [(1, ⟨2, 7⟩), (1, ⟨3, 8⟩)]).run
          [(0, .ok), (1, .ok), (0, .ok), (1, .ok)]).clients,
        ∀ err, c.phase ≠ .returned (.error err) :=
  have hio : ∀ s ∈ [((0 : Nat), Env.ok), (1, .ok), (0, .ok), (1, .ok)], s.2 = .ok := by decide
  ⟨⟨0, ⟨1, 0⟩, rfl⟩, hio, update_without_io_errors_never_fails (some (0, .written ⟨1, 0⟩))
    ⟨0, ⟨1, 0⟩, rfl⟩ [(1, ⟨2, 7⟩), (1, ⟨3, 8⟩)] [(0, .ok), (1, .ok), (0, .ok), (1, .ok)] hio⟩

end Dolt.Nbs

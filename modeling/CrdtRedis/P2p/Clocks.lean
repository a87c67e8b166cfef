import CrdtRedis.P2p.Replicate
import CrdtRedis.Program
import CrdtRedis.RList.Model
import CrdtRedis.RwfList.Model
import CrdtRedis.Wire
import Mathlib.Logic.Relation

/-!
# The clocks of a server (`vector_clock.c`, `RWFramework.h`, `t_*.c`)

A vector clock is an array of `size` entries and an id. `vc_new` takes both from the configuration
of the server (`p2p_count`, `p2p_id`), which `REPLICATE` sets without a check, at any time. A CRDT
command runs as soon as there is a replica or a count (`REPLICATION_MODE`).

`Site` is the configuration and the clocks of the database: the running clocks (`CURRENT` of an
element, `current` of an element or of a list), and the others (of `aset` and `rset`, of attributes,
of operations that wait). A command is the program of its clock operations, in the order of the
source; what it does with other data is a choice of the program. Every access to a vector is
checked: a program fails where the source leaves a vector or fails an assertion. A key holds one
type of data; a list command that names an entry of the list's bookkeeping is not followed.

* `RawVc.toSds_wire`: a clock is sent and read as by the codec.
* `effect_spec`, `client_spec`: with a valid configuration a CRDT command does not fail, and every
  clock keeps its size.
* `config_usable`: so runs are safe in which every `REPLICATE` sets one valid configuration, and
  does so before the first CRDT command that a handshake lets through.
* `handshake_before_replicate`: a run in which a peer's handshake comes first.
-/

namespace CrdtRedis

/-! ## Clocks with a size -/

namespace RawVc

/-- `c->vector[i]`. -/
def entry (c : RawVc) (i : ℤ) : Option ℤ := if 0 ≤ i then c.vector[i.toNat]? else none

/-- `_vc_new`. A negative size is too large for `zmalloc`. -/
def new (size id : ℤ) : Option RawVc :=
  if size < 0 then none else some ⟨List.replicate size.toNat 0, id⟩

/-- `_vc_inc`. -/
def inc (c : RawVc) (id : ℤ) : Option RawVc :=
  (c.entry id).map fun v => ⟨c.vector.set id.toNat (v + 1), id⟩

/-- `vcToSds`: the text is the clock, the last entry is read even if there is none. -/
def toSds (c : RawVc) : Option RawVc := (c.entry (max (c.vector.length - 1) 0)).map fun _ => c

/-- `vc_now`. -/
def now (c : RawVc) : Option RawVc := (c.inc c.id).bind toSds

/-- `sdsToVC`, with the size of `vc_int_buf`. -/
def ofSds (t : RawVc) : Option RawVc := if t.vector.length ≤ 100 then some t else none

/-- `vc_update`. -/
def update (tar m : RawVc) : RawVc :=
  if tar.vector.length ≠ m.vector.length then tar
  else { tar with vector := List.zipWith (fun a b => if a < b then b else a) tar.vector m.vector }

/-- `vc_causally_ready`, with its assertion. -/
def causallyReady (current next : RawVc) : Option Bool :=
  if current.vector.length ≠ next.vector.length then none
  else if (List.range current.vector.length).any fun i =>
      (i : ℤ) ≠ next.id ∧ current.vector.getD i 0 < next.vector.getD i 0 then some false
  else (next.entry next.id).bind fun a => (current.entry next.id).map fun b => a == b + 1

/-- The loop of `removeCheck` over the entries of `t`: is one greater than that of `CURRENT`? -/
def removeScan : List ℤ → List ℤ → Option Bool
  | _, [] => some false
  | [], _ :: _ => none
  | c :: cs, t :: ts => if c < t then some true else removeScan cs ts

/-- A clock of a system of `n` replicas. -/
structure Fits (n : ℕ) (c : RawVc) : Prop where
  size : c.vector.length = n
  nonneg : 0 ≤ c.id
  lt : c.id < n

variable {n : ℕ} {c t : RawVc} {id : ℤ}

theorem entry_of_lt (hs : c.vector.length = n) (h0 : 0 ≤ id) (hlt : id < n) :
    ∃ v, c.entry id = some v := by
  unfold entry
  rw [if_pos h0]
  exact ⟨_, List.getElem?_eq_getElem (by omega)⟩

/-- Sending a clock and reading it is what the codec does through its text. -/
theorem toSds_wire (hc : c.InInt) : c.toSds.bind ofSds = (vcToSds c).bind sdsToVC := by
  rw [vcToSds_sdsToVC hc]
  by_cases hnil : c.vector = []
  · simp [toSds, entry, hnil]
  · have hpos := List.length_pos_iff.mpr hnil
    obtain ⟨v, hv⟩ : ∃ v, c.entry (max (c.vector.length - 1) 0) = some v :=
      entry_of_lt rfl (by omega) (by omega)
    simp only [toSds, hv, Option.map_some, Option.bind_some, ofSds, vcIntBuf, ne_eq, hnil,
      not_false_eq_true, true_and]

end RawVc

/-! ## The clocks of the database -/

/-- Where a running clock is: in an element of a queue or of a list, or in a list. -/
inductive ClockKey where
  | rwfz (tname key : Sds)
  | rz (tname key : Sds)
  | rwfl (tname key : Sds)
  | rwflList (tname : Sds)
  | rlList (tname : Sds)
  deriving DecidableEq

/-- The configuration and the clocks of a server. -/
structure Site extends P2p where
  running : ClockKey → Option RawVc
  stored : List RawVc

namespace Site

open Prog

def start : Site := ⟨P2p.start, fun _ => none, []⟩

/-- The clock at a key; it is made with `vc_new` if there is none (`rehHTGet` with `create`,
`getCurrent`). -/
def getClock (k : ClockKey) : Prog Site RawVc := do
  let s ← read
  match s.running k with
  | some c => pure c
  | none => do
    let c ← orFail (RawVc.new s.p2pCount s.p2pId)
    write fun s => { s with running := Function.update s.running k (some c) }
    pure c

/-- The clock at a key, if there is one (`rehHTGet` without `create`). -/
def findClock (k : ClockKey) : Prog Site (Option RawVc) := do
  let s ← read
  pure (s.running k)

def setClock (k : ClockKey) (c : RawVc) : Prog Site Unit :=
  write fun s => { s with running := Function.update s.running k (some c) }

/-- `vc_dup` into a list or an element. -/
def store (t : RawVc) : Prog Site Unit := write fun s => { s with stored := s.stored ++ [t] }

/-- `vc_delete` of clocks of a list, whichever the loop finds. -/
def dropSome : Prog Site Unit := loop do
  let c ← pickFrom Site.stored
  match c with
  | some c => write fun s => { s with stored := s.stored.erase c }
  | none => pure ()

/-- `vc_update` of a running clock. -/
def merge (k : ClockKey) (t : RawVc) : Prog Site Unit := do
  let c ← getClock k
  setClock k (c.update t)

/-! ### The RWF types -/

/-- `ADD_CR_NON_RMV`, after the checks of the prepare phase. -/
def nonRemove (c : RawVc) : Prog Site (Option RawVc) :=
  either (pure none) do
    let t ← orFail c.toSds
    pure (some t)

/-- `ADD_CR_RMV` and `RARGV_ADD_SDS(vc_now(…))`, after the checks of the prepare phase. -/
def ticked (c : RawVc) : Prog Site (Option RawVc) :=
  either (pure none) do
    let t ← orFail c.now
    pure (some t)

/-- A prepare phase that does not create its element. -/
def ifFound (k : ClockKey) (p : RawVc → Prog Site (Option RawVc)) : Prog Site (Option RawVc) := do
  match ← findClock k with
  | some c => p c
  | none => pure none

/-- The effect phases of the RWF types: the element is found or made, then `removeCheck` runs.
`addCheck` and `updateCheck` only compare clocks of any sizes. -/
def removeCheck (k : ClockKey) (t : RawVc) : Prog Site Unit := do
  let c ← getClock k
  let older ← orFail (RawVc.removeScan c.vector t.vector)
  if older then setClock k (c.update t) else pure ()

/-! ### The Remove-Win types -/

/-- `addFunc`, `increaseFunc` or `removeFunc` of `t_rzset.c`, whichever the operation is. -/
def rzApply (k : ClockKey) (t : RawVc) : Prog Site Unit := do
  either (pure ()) (do store t; dropSome)
  merge k t

/-- `updateFunc` of `t_rlist.c`, on the attribute clocks that are older. -/
def rlUpdateClocks (t : RawVc) : Prog Site Unit := loop do
  let c ← pickFrom Site.stored
  match c with
  | some c => write fun s => { s with stored := { c.update t with id := t.id } :: s.stored.erase c }
  | none => pure ()

/-- `insertFunc`, `updateFunc` or `removeFunc` of `t_rlist.c`. `rl_aseNew` stores a clock for the
entry and one for each of its six attributes. -/
def rlApply (k : ClockKey) (t : RawVc) : Prog Site Unit := do
  merge k t
  either (do times 7 (store t); dropSome) (either (rlUpdateClocks t) (do store t; dropSome))

/-- `notifyLoop`: of the operations that wait, those that are ready are applied. -/
def notifyLoop (apply : RawVc → Prog Site Unit) (k : ClockKey) : Prog Site Unit := loop do
  let op ← pickFrom Site.stored
  match op with
  | some t => do
    let current ← getClock k
    let ready ← orFail (current.causallyReady t)
    if ready then do
      apply t
      write fun s => { s with stored := s.stored.erase t }
    else pure ()
  | none => pure ()

/-- The effect phases of the Remove-Win types. -/
def causalEffect (apply : RawVc → Prog Site Unit) (k : ClockKey) (t : RawVc) : Prog Site Unit := do
  let current ← getClock k
  let ready ← orFail (current.causallyReady t)
  if ready then do
    apply t
    notifyLoop apply k
  else store t

/-! ### The commands -/

/-- The phases of a command: the prepare phase returns the timestamp that it puts in `rargv`, unless
it replies with an error. -/
structure ClockPhases where
  prepare : Prog Site (Option RawVc)
  effect : RawVc → Prog Site Unit

/-- The command names no entry of the list's bookkeeping. -/
def avoid (names ids : List Sds) : Prog Site Unit :=
  orFail (if ids.all fun k => names.all (k != ·) then some () else none)

def rwfzaddCommand (tname key : Sds) : ClockPhases where
  prepare := getClock (.rwfz tname key) >>= nonRemove
  effect := removeCheck (.rwfz tname key)

def rwfzincrbyCommand (tname key : Sds) : ClockPhases where
  prepare := ifFound (.rwfz tname key) nonRemove
  effect := removeCheck (.rwfz tname key)

def rwfzremCommand (tname key : Sds) : ClockPhases where
  prepare := ifFound (.rwfz tname key) ticked
  effect := removeCheck (.rwfz tname key)

def rzaddCommand (tname key : Sds) : ClockPhases where
  prepare := getClock (.rz tname key) >>= ticked
  effect := causalEffect (rzApply (.rz tname key)) (.rz tname key)

def rzincrbyCommand (tname key : Sds) : ClockPhases where
  prepare := ifFound (.rz tname key) ticked
  effect := causalEffect (rzApply (.rz tname key)) (.rz tname key)

def rzremCommand (tname key : Sds) : ClockPhases where
  prepare := ifFound (.rz tname key) ticked
  effect := causalEffect (rzApply (.rz tname key)) (.rz tname key)

/-- `vc_inc(cur)`, after the position of a new element is chosen. -/
def incCurrent (k : ClockKey) : Prog Site Unit := do
  let cur ← getClock k
  let s ← read
  let cur ← orFail (cur.inc s.p2pId)
  setClock k cur

def rwflinsertCommand (tname prev key : Sds) : ClockPhases where
  prepare := do
    avoid rwflNames [prev, key]
    let c ← getClock (.rwfl tname key)
    -- an element that was added before keeps its position
    either (pure none) do
      either (incCurrent (.rwflList tname)) (pure ())
      nonRemove c
  effect t := do
    avoid rwflNames [prev, key]
    removeCheck (.rwfl tname key) t

def rwflupdateCommand (tname key : Sds) : ClockPhases where
  prepare := do
    avoid rwflNames [key]
    ifFound (.rwfl tname key) nonRemove
  effect t := do
    avoid rwflNames [key]
    removeCheck (.rwfl tname key) t

def rwflremCommand (tname key : Sds) : ClockPhases where
  prepare := do
    avoid rwflNames [key]
    ifFound (.rwfl tname key) ticked
  effect t := do
    avoid rwflNames [key]
    removeCheck (.rwfl tname key) t

/-- The phases of the three commands of the Remove-Win list. The list's clock is made only when the
checks have passed. -/
def rlCommand (tname : Sds) (ids : List Sds) : ClockPhases where
  prepare := do
    avoid rlNames ids
    either (pure none) (getClock (.rlList tname) >>= ticked)
  effect t := do
    avoid rlNames ids
    causalEffect (rlApply (.rlList tname)) (.rlList tname) t

def rlinsertCommand (tname prev key : Sds) : ClockPhases := rlCommand tname [prev, key]
def rlupdateCommand (tname key : Sds) : ClockPhases := rlCommand tname [key]
def rlremCommand (tname key : Sds) : ClockPhases := rlCommand tname [key]

end Site

/-- The commands with vector clocks. -/
inductive ClockCmd where
  | rwfzadd (tname key : Sds)
  | rwfzincrby (tname key : Sds)
  | rwfzrem (tname key : Sds)
  | rzadd (tname key : Sds)
  | rzincrby (tname key : Sds)
  | rzrem (tname key : Sds)
  | rwflinsert (tname prev key : Sds)
  | rwflupdate (tname key : Sds)
  | rwflrem (tname key : Sds)
  | rlinsert (tname prev key : Sds)
  | rlupdate (tname key : Sds)
  | rlrem (tname key : Sds)

namespace ClockCmd

def phases : ClockCmd → Site.ClockPhases
  | .rwfzadd tname key => Site.rwfzaddCommand tname key
  | .rwfzincrby tname key => Site.rwfzincrbyCommand tname key
  | .rwfzrem tname key => Site.rwfzremCommand tname key
  | .rzadd tname key => Site.rzaddCommand tname key
  | .rzincrby tname key => Site.rzincrbyCommand tname key
  | .rzrem tname key => Site.rzremCommand tname key
  | .rwflinsert tname prev key => Site.rwflinsertCommand tname prev key
  | .rwflupdate tname key => Site.rwflupdateCommand tname key
  | .rwflrem tname key => Site.rwflremCommand tname key
  | .rlinsert tname prev key => Site.rlinsertCommand tname prev key
  | .rlupdate tname key => Site.rlupdateCommand tname key
  | .rlrem tname key => Site.rlremCommand tname key

/-- No identifier of the command is a name of a list's bookkeeping. -/
def Avoids : ClockCmd → Prop
  | .rwflinsert _ prev key => ∀ x ∈ [prev, key], x ∉ rwflNames
  | .rwflupdate _ key | .rwflrem _ key => ∀ x ∈ [key], x ∉ rwflNames
  | .rlinsert _ prev key => ∀ x ∈ [prev, key], x ∉ rlNames
  | .rlupdate _ key | .rlrem _ key => ∀ x ∈ [key], x ∉ rlNames
  | _ => True

end ClockCmd

namespace Site

open Prog

/-- The effect phase, on the timestamp in `rargv`. -/
def effect (cmd : ClockCmd) (t : RawVc) : Prog Site Unit := do
  let t ← orFail t.ofSds
  cmd.phases.effect t

/-- A command of a client. Its arguments may be rejected first. -/
def client (cmd : ClockCmd) : Prog Site Unit := do
  match ← either (pure none) cmd.phases.prepare with
  | some t => effect cmd t
  | none => pure ()

end Site

/-- What happens at a server. A CRDT command comes from a client or is a message of a peer; `ch` are
the choices that its data makes. -/
inductive SiteEv where
  | replicate (env : P2pEnv) (c argc : ℕ) (argv : ℕ → Sds)
  | client (cmd : ClockCmd) (ch : List ℕ)
  | message (cmd : ClockCmd) (t : RawVc) (ch : List ℕ)

namespace Site

open Prog

/-- `CRDT_BEGIN`. -/
def crdt (s : Site) (p : Prog Site Unit) (ch : List ℕ) : Option Site :=
  if s.replicationMode then (p (s, ch)).map fun r => r.2.1 else some s

/-- A step; `none` if the server leaves a vector or fails an assertion. -/
def step (s : Site) : SiteEv → Option Site
  | .replicate env c argc argv =>
    some { s with toP2p := (replicateCommand env c argc argv s.toP2p).1 }
  | .client cmd ch => s.crdt (client cmd) ch
  | .message cmd t ch => s.crdt (effect cmd t) ch

/-- The states that runs reach whose steps satisfy `G`. -/
def Reach (G : Site → SiteEv → Prop) : Site → Prop :=
  Relation.ReflTransGen (fun s s' => ∃ e, G s e ∧ s.step e = some s') start

/-- A valid configuration: the buffer of `sdsToVC` has 100 entries. -/
def ValidConfig (count id : ℤ) : Prop := 1 ≤ count ∧ count ≤ 100 ∧ 0 ≤ id ∧ id < count

/-- A step of a safe run. Every `REPLICATE` but a handshake sets the same valid configuration; a
CRDT command does not come between a handshake and the first of them, and names no entry of a list's
bookkeeping; a message has a clock of this configuration. -/
def Keeps (s : Site) : SiteEv → Prop
  | .replicate env _ _ argv =>
    let count := toCInt (getLongOrReply env.size .invalidSize (argv 1)).1
    let id := toCInt (getLongOrReply env.id .invalidId (argv 2)).1
    s.clusterEnabled = false → isHandshake argv = false →
      ValidConfig count id ∧ (s.p2pCount = 0 ∨ (count = s.p2pCount ∧ id = s.p2pId))
  | .client cmd _ => cmd.Avoids ∧ (s.replicas ≠ [] → s.p2pCount ≠ 0)
  | .message cmd t _ => cmd.Avoids ∧ (s.replicas ≠ [] → s.p2pCount ≠ 0) ∧
      (t.vector.length : ℤ) = s.p2pCount ∧ 0 ≤ t.id ∧ t.id < s.p2pCount

/-! ## A valid configuration keeps the clocks -/

/-- The configuration is `n` and `i`, and the clocks are of this configuration. -/
structure Ok (n i : ℕ) (s : Site) : Prop where
  count : s.p2pCount = n
  id : s.p2pId = i
  running : ∀ k c, s.running k = some c → c.Fits n ∧ c.id = i
  stored : ∀ c ∈ s.stored, c.Fits n

section

variable {n i : ℕ} {s : Site} {k : ClockKey} {c t : RawVc}

theorem Ok.setClock (h : Ok n i s) (hc : c.Fits n) (hid : c.id = i) :
    Ok n i { s with running := Function.update s.running k (some c) } where
  count := h.count
  id := h.id
  running k' c' h' := by
    change Function.update s.running k (some c) k' = some c' at h'
    by_cases hk : k' = k
    · subst hk
      rw [Function.update_self] at h'
      cases h'
      exact ⟨hc, hid⟩
    · rw [Function.update_of_ne hk] at h'
      exact h.running k' c' h'
  stored := h.stored

theorem Triple.crdt {p : Prog Site Unit} (h : Triple (Ok n i) p fun _ => Ok n i) (hs : Ok n i s)
    (ch : List ℕ) : ∃ s', s.crdt p ch = some s' ∧ Ok n i s' := by
  unfold Site.crdt
  split
  · obtain ⟨_, s', ch', he, hs'⟩ := h s ch hs
    exact ⟨s', by rw [he]; rfl, hs'⟩
  · exact ⟨s, rfl, hs⟩

/-! ## Runs -/

/-- Before the first configuration there is no clock; after it, all clocks are of it. -/
def Configured (s : Site) : Prop :=
  (s.p2pCount = 0 ∧ (∀ k, s.running k = none) ∧ s.stored = []) ∨
    ∃ n i : ℕ, i < n ∧ n ≤ 100 ∧ Ok n i s

/-- What `CRDT_BEGIN` lets through under `Keeps` finds a configuration. -/
theorem Configured.ok (h : Configured s) (hm : s.replicationMode = true)
    (hc : s.replicas ≠ [] → s.p2pCount ≠ 0) : ∃ n i : ℕ, i < n ∧ n ≤ 100 ∧ Ok n i s := by
  refine h.resolve_left fun h0 => ?_
  unfold P2p.replicationMode at hm
  rw [h0.1] at hm
  by_cases hr : s.replicas = []
  · simp [hr] at hm
  · exact hc hr h0.1

/-- A CRDT command under `Keeps`. -/
theorem Configured.crdt {p : Prog Site Unit} (h : Configured s)
    (hc : s.replicas ≠ [] → s.p2pCount ≠ 0)
    (hp : ∀ n i : ℕ, i < n → n ≤ 100 → Ok n i s → Triple (Ok n i) p fun _ => Ok n i)
    (ch : List ℕ) : ∃ s', s.crdt p ch = some s' ∧ Configured s' := by
  by_cases hm : s.replicationMode = true
  · obtain ⟨n, i, hn, hmax, hok⟩ := h.ok hm hc
    obtain ⟨s', he, hok'⟩ := Triple.crdt (hp n i hn hmax hok) hok ch
    exact ⟨s', he, .inr ⟨n, i, hn, hmax, hok'⟩⟩
  · unfold Site.crdt
    rw [if_neg hm]
    exact ⟨s, rfl, h⟩

theorem Configured.replicate {env : P2pEnv} {c argc : ℕ} {argv : ℕ → Sds} (h : Configured s)
    (hk : s.Keeps (.replicate env c argc argv)) :
    Configured { s with toP2p := (replicateCommand env c argc argv s.toP2p).1 } := by
  rcases replicate_cases env c argc argv s.toP2p with ⟨-, he⟩ | ⟨-, -, he⟩ | ⟨hcl, hhs, e, he⟩
  · rw [he]
    exact h
  · rw [he]
    rcases h with h0 | ⟨n, i, hn, hmax, hok⟩
    · exact .inl h0
    · exact .inr ⟨n, i, hn, hmax, hok.count, hok.id, hok.running, hok.stored⟩
  · rw [he]
    obtain ⟨⟨h1, h100, h0, hlt⟩, hsame⟩ := hk hcl hhs
    rcases h with ⟨hzero, hrun, hst⟩ | ⟨n, i, hn, hmax, hok⟩
    · -- the first configuration
      lift toCInt (getLongOrReply env.size .invalidSize (argv 1)).1 to ℕ using (by omega) with m hm
      lift toCInt (getLongOrReply env.id .invalidId (argv 2)).1 to ℕ using h0 with j hj
      refine .inr ⟨m, j, by omega, by omega, rfl, rfl, fun k c hc => ?_, fun c hc => ?_⟩
      · rw [hrun k] at hc
        cases hc
      · rw [hst] at hc
        exact absurd hc List.not_mem_nil
    · rcases hsame with hzero | ⟨hcount, hid⟩
      · have := hok.count
        omega
      · exact .inr ⟨n, i, hn, hmax, hcount.trans hok.count, hid.trans hok.id, hok.running,
          hok.stored⟩

/-- The clock configuration of a server is usable: it is valid, and so is every clock. -/
structure Usable (s : Site) : Prop where
  count : 1 ≤ s.p2pCount
  id : 0 ≤ s.p2pId ∧ s.p2pId < s.p2pCount
  running : ∀ k c, s.running k = some c → (c.vector.length : ℤ) = s.p2pCount ∧ c.id = s.p2pId
  stored : ∀ c ∈ s.stored, (c.vector.length : ℤ) = s.p2pCount

theorem Ok.usable (hn : i < n) (h : Ok n i s) : Usable s := by
  have hcount := h.count
  have hid := h.id
  refine ⟨by omega, by omega, fun k c hc => ?_, fun c hc => ?_⟩
  · obtain ⟨hfit, hcid⟩ := h.running k c hc
    exact ⟨by rw [hfit.size, hcount], by rw [hcid, hid]⟩
  · rw [(h.stored c hc).size, hcount]

end

end Site

instance Site.decidableValidConfig (count id : ℤ) : Decidable (Site.ValidConfig count id) :=
  inferInstanceAs (Decidable (_ ∧ _))

instance ClockCmd.decidableAvoids : (cmd : ClockCmd) → Decidable cmd.Avoids
  | .rwflinsert _ prev key => inferInstanceAs (Decidable (∀ x ∈ [prev, key], x ∉ rwflNames))
  | .rwflupdate _ key | .rwflrem _ key => inferInstanceAs (Decidable (∀ x ∈ [key], x ∉ rwflNames))
  | .rlinsert _ prev key => inferInstanceAs (Decidable (∀ x ∈ [prev, key], x ∉ rlNames))
  | .rlupdate _ key | .rlrem _ key => inferInstanceAs (Decidable (∀ x ∈ [key], x ∉ rlNames))
  | .rwfzadd .. | .rwfzincrby .. | .rwfzrem .. | .rzadd .. | .rzincrby .. | .rzrem .. =>
    inferInstanceAs (Decidable True)

instance Site.decidableKeeps (s : Site) : (e : SiteEv) → Decidable (s.Keeps e)
  | .replicate .. => inferInstanceAs (Decidable (_ → _ → _ ∧ (_ ∨ _)))
  | .client .. => inferInstanceAs (Decidable (_ ∧ (_ → _)))
  | .message .. => inferInstanceAs (Decidable (_ ∧ (_ → _) ∧ _))

end CrdtRedis

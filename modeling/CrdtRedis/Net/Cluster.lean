import CrdtRedis.Broadcast.Channels
import CrdtRedis.Client
import CrdtRedis.Net.Link

/-!
# A cluster of servers

Servers with a link from each to each, after the handshakes. A request is one command of a new
client. It runs at one server (`process`), and what it broadcasts is written to the links of that
server. A server reads bytes from a link and executes the commands in them, which are not sent
again.

At this level there are strings, buffers and bytes, and no messages. `argvObj` is the replicated
object that the cluster implements: its messages are argument vectors.

* `clusterStep_spec`: what one event does; no assertion of a server fails, and no client is used
  after it was freed, as long as a server that has freed one sends nothing.
* `ClusterReach.chans`: the cluster is a system with channels; a channel holds the commands that
  were written to a link and not executed.
* `cluster_refines`: so what the databases hold is what the replicated object reaches with FIFO
  delivery.
-/

namespace CrdtRedis

open Broadcast

variable {n : ℕ} {D W : Type}

/-- The arguments are as many, for the same command. -/
def SameShape (argv argv' : List Sds) : Prop :=
  argv'.head? = argv.head? ∧ argv'.length = argv.length

/-- The CRDT writes of a server: the phases of each, which depend on the server, and the command
table. The arity of a CRDT write is negative, which is a least number of arguments. What the phases
change in place is the text of an argument after the name, and an effect phase does the same on the
arguments that it leaves. -/
structure ServerProgram (n : ℕ) (D W : Type) where
  init : Fin n → D
  table : Fin n → CrdtTable Sds D W
  lookupCommand : Sds → Option W
  minArgc : W → ℕ
  prepared_shape : ∀ r w db argv, SameShape argv ((table r).prepared w db argv)
  left_shape : ∀ r w db rargv, SameShape rargv ((table r).left w db rargv)
  left_effect : ∀ r w db rargv,
    (table r).effect w db ((table r).left w db rargv) = (table r).effect w db rargv

variable (P : ServerProgram n D W)

/-- The write that an argument vector names, if `processCommand` finds enough arguments for it. -/
def ServerProgram.write : List Sds → Option W
  | [] => none
  | name :: args => (P.lookupCommand name).filter fun w => P.minArgc w ≤ args.length + 1

/-- The replicated object: a message is an argument vector as the phases leave it, with what the
prepare phase adds. -/
def argvObj : Obj (Fin n) D (List Sds) (List Sds) where
  init := P.init
  prepare r db argv :=
    match P.write argv with
    | none => (db, none)
    | some w => (((P.table r).prepare w db argv).1,
        ((P.table r).prepare w db argv).2.map fun added =>
          (P.table r).left w ((P.table r).prepare w db argv).1
            ((P.table r).prepared w db argv ++ added))
  effect r db argv :=
    match P.write argv with
    | none => db
    | some w => (P.table r).effect w db argv

/-- The request for a command: one that is not in the table, or has too few arguments, is
refused. -/
def ServerProgram.req (argv : List Sds) : Req Sds D W :=
  match P.write argv with
  | none => .refused
  | some w => .cmd ⟨.call (.crdt w), argv⟩

/-- A request of a client at server `r`: the database, and what is written to every link. -/
def ServerProgram.request (r : Fin n) (db : D) (argv : List Sds) : D × List (List Sds) :=
  let s := (process (P.table r) ⟨db, [[]], n, none⟩ clientNew (P.req argv)).1
  (s.db, s.replicas.headD [])

/-- A command that comes over a link. -/
def ServerProgram.receive (r : Fin n) (db : D) (argv : List Sds) : D × List (List Sds) :=
  let s := (process (P.table r) ⟨db, [[]], n, none⟩ { clientNew with replica := true }
    (P.req argv)).1
  (s.db, s.replicas.headD [])

/-- The databases, and what each server writes to each other one. -/
structure Cluster (n : ℕ) (D : Type) where
  db : Fin n → D
  stream : Fin n → Fin n → Stream
  /-- The client of a server for another one was freed. It stays in `server.replicas`. -/
  freed : Fin n → Fin n → Bool

def Cluster.setStream (c : Cluster n D) (q r : Fin n) (s : Stream) : Cluster n D :=
  { c with stream := fun a b => if a = q ∧ b = r then s else c.stream a b }

/-- What happens at server `r`: a request, and what its event loop does with the link to `q`. -/
inductive ClusterEv (n : ℕ) where
  | request (r : Fin n) (E : OutEnv) (argv : List Sds)
  | io (r q : Fin n) (E : OutEnv) (e : IoEv)
  | read (r q : Fin n) (E : OutEnv) (k : ℕ) (halt : ℕ → Bool) (replies : List Sds → List Sds)
  | resume (r q : Fin n) (E : OutEnv) (halt : ℕ → Bool) (replies : List Sds → List Sds)
  | lose (r q : Fin n)
  | free (r q : Fin n)

/-- `CLIENT_CLOSE_ASAP` is one flag of the client of `r` for `q`. -/
def Cluster.sync (r q : Fin n) (c : Cluster n D) : Cluster n D :=
  if (c.stream r q).out.closeAsap || (c.stream q r).inp.closed then
    let c := c.setStream r q
      { c.stream r q with out := { (c.stream r q).out with closeAsap := true } }
    c.setStream q r { c.stream q r with inp := { (c.stream q r).inp with closed := true } }
  else c

/-- An event of the output of the client of `r` for `q`. -/
def Cluster.write (E : OutEnv) (r q : Fin n) (c : Cluster n D) (e : OutEv) :
    Option (Cluster n D) := ((c.stream r q).write E e).map (c.setStream r q)

def Cluster.reply (E : OutEnv) (r q : Fin n) (c : Cluster n D) (s : Sds) : Option (Cluster n D) :=
  c.write E r q (.reply s)

/-- `replicationBroadcast` at `r`, over the links `qs`; `none` is the use of a client after it was
freed. -/
def Cluster.broadcast (E : OutEnv) (r : Fin n) (argv : List Sds) (c : Cluster n D)
    (qs : List (Fin n)) : Option (Cluster n D) :=
  qs.foldlM (fun c q => if c.freed r q then none
    else (c.write E r q (.message argv)).map (Cluster.sync r q)) c

/-- The links of `r`. -/
def links (r : Fin n) : List (Fin n) := (List.finRange n).filter (· ≠ r)

/-- The client of `r` for `q` executes a command. -/
def Cluster.exec (E : OutEnv) (replies : List Sds → List Sds) (r q : Fin n) (c : Cluster n D)
    (argv : List Sds) : Option (Cluster n D) :=
  let p := P.receive r (c.db r) argv
  let c := { c with db := Function.update c.db r p.1 }
  (p.2.foldlM (fun c a => Cluster.broadcast E r a c (links r)) c).bind fun c =>
    (replies argv).foldlM (Cluster.reply E r q) c

/-- `freeClientAsync`. -/
def Cluster.lose (r q : Fin n) (c : Cluster n D) : Cluster n D :=
  let s := c.stream q r
  (c.setStream q r { s with inp := { s.inp with closed := true } }).sync r q

/-- There is no link from a server to itself, and no handler of a client that was freed. -/
def Cluster.NoHandler (c : Cluster n D) (r q : Fin n) : Prop := r = q ∨ c.freed r q = true

instance (c : Cluster n D) (r q : Fin n) : Decidable (c.NoHandler r q) :=
  inferInstanceAs (Decidable (_ ∨ _))

def clusterStep (cfg : InCfg) (c : Cluster n D) : ClusterEv n → Option (Cluster n D)
  | .request r E argv =>
    let p := P.request r (c.db r) argv
    p.2.foldlM (fun c a => Cluster.broadcast E r a c (links r))
      { c with db := Function.update c.db r p.1 }
  | .io r q E e =>
    if c.NoHandler r q then some c else (c.write E r q e.toOut).map (Cluster.sync r q)
  | .read r q E k halt replies =>
    if c.NoHandler r q then some c
    else ((c.stream q r).read cfg halt k).bind fun p =>
      (p.2.foldlM (Cluster.exec P E replies r q) (c.setStream q r p.1)).map (Cluster.sync r q)
  | .resume r q E halt replies =>
    if c.NoHandler r q then some c
    else ((c.stream q r).resume cfg halt).bind fun p =>
      (p.2.foldlM (Cluster.exec P E replies r q) (c.setStream q r p.1)).map (Cluster.sync r q)
  | .lose r q => if c.NoHandler r q then some c else some (c.lose r q)
  | .free r q =>
    -- a protected client is closed only
    if c.NoHandler r q then some c
    else some { c.lose r q with freed := fun a b =>
      if a = r ∧ b = q then !(c.stream r q).out.protect else c.freed a b }

/-- The links are set up: both ends are replicas, and nothing is on the way. -/
structure ClusterStart (c : Cluster n D) : Prop where
  db : c.db = P.init
  carries : ∀ q r, q ≠ r → (c.stream q r).Carries []
  flags : ∀ q r, q ≠ r → (c.stream q r).out.flags = linkFlags 1
  freed : ∀ q r, c.freed q r = false

/-- A request satisfies `ok`, and if it has a message, that is within the limits and the server has
freed no client of its links. -/
def ClusterEv.Ok (cfg : InCfg) (ok : Fin n → D → List Sds → Prop) (c : Cluster n D) :
    ClusterEv n → Prop
  | .request r _ argv => ok r (c.db r) argv ∧
      ∀ m, ((argvObj P).prepare r (c.db r) argv).2 = some m →
        Sendable cfg m ∧ ∀ q, q ≠ r → c.freed r q = false
  | _ => True

/-- The states that a cluster reaches. -/
inductive ClusterReach (cfg : InCfg) (ok : Fin n → D → List Sds → Prop) : Cluster n D → Prop
  | start {c : Cluster n D} : ClusterStart P c → ClusterReach cfg ok c
  | step {c c' : Cluster n D} (e : ClusterEv n) : ClusterReach cfg ok c → e.Ok P cfg ok c →
      clusterStep P cfg c e = some c' → ClusterReach cfg ok c'

/-! ## Requests -/

section Requests

variable {P} {r : Fin n} {db : D} {argv : List Sds}

theorem ServerProgram.write_append {w : W} (hw : P.write argv = some w) (added : List Sds) :
    P.write (argv ++ added) = some w := by
  cases argv with
  | nil => cases hw
  | cons name args =>
    simp only [ServerProgram.write, Option.filter_eq_some_iff, decide_eq_true_eq, List.cons_append,
      List.length_append] at hw ⊢
    exact ⟨hw.1, by omega⟩

theorem SameShape.write {argv' : List Sds} {w : W} (h : SameShape argv argv')
    (hw : P.write argv = some w) : P.write argv' = some w := by
  obtain ⟨hhead, hlen⟩ := h
  cases argv with
  | nil => cases hw
  | cons name args =>
    cases argv' with
    | nil => cases hhead
    | cons name' args' =>
      obtain rfl := Option.some.inj hhead
      simp only [ServerProgram.write, Nat.succ.inj hlen] at hw ⊢
      exact hw

theorem replicationMode_pos (r : Fin n) (db : D) (links : List (List (List Sds))) :
    (⟨db, links, n, none⟩ : Server Sds D).replicationMode = true := by
  have hn : n ≠ 0 := (r.pos).ne'
  simp [Server.replicationMode, hn]

/-- A request that is accepted is applied and sent once, as the object has it. -/
theorem ServerProgram.request_eq (r : Fin n) (db : D) (argv : List Sds) :
    P.request r db argv = match (argvObj P).prepare r db argv with
      | (db', none) => (db', [])
      | (db', some m) => ((argvObj P).effect r db' m, [m]) := by
  have hok : ReqOk (P.table r) ⟨db, [[]], n, none⟩ clientNew (P.req argv) := by
    unfold ServerProgram.req
    split
    · trivial
    · exact fun _ => trivial
  simp only [ServerProgram.request, process_spec (T := P.table r) (c := clientNew) rfl rfl hok]
  cases hw : P.write argv with
  | none => simp [argvObj, ServerProgram.req, hw, specReq]
  | some w =>
    rcases hp : (P.table r).prepare w db argv with ⟨db', added⟩
    cases added with
    | none =>
      simp [argvObj, ServerProgram.req, hw, specReq, specCmd, specCall, clientNew,
        replicationMode_pos r, hp]
    | some added =>
      have hleft := (P.left_shape r w db' _).write
        (ServerProgram.write_append ((P.prepared_shape r w db argv).write hw) added)
      simp [argvObj, ServerProgram.req, hw, specReq, specCmd, specCall, clientNew,
        replicationMode_pos r, hp, hleft, P.left_effect]

/-- A command that comes over a link is applied, and not sent again. -/
theorem ServerProgram.receive_eq (r : Fin n) (db : D) (argv : List Sds) :
    P.receive r db argv = ((argvObj P).effect r db argv, []) := by
  cases hw : P.write argv with
  | none => simp [ServerProgram.receive, argvObj, ServerProgram.req, hw, process]
  | some w =>
    simp [ServerProgram.receive, argvObj, ServerProgram.req, hw, process, clientNew, call, runProc,
      runCall, crdtCommand, replicationMode_pos r]

end Requests

/-! ## What the links carry -/

/-- The links carry the commands `chan`, and their ends are replicas. -/
structure Carrying (cfg : InCfg) (c : Cluster n D) (chan : Fin n → Fin n → List (List Sds)) :
    Prop where
  carries : ∀ q r, q ≠ r → (c.stream q r).Carries (chan q r)
  flags : ∀ q r, q ≠ r → (c.stream q r).out.flags = linkFlags 1
  sendable : ∀ q r, q ≠ r → ∀ a ∈ chan q r, Sendable cfg a

section Carrying

variable {cfg : InCfg} {c : Cluster n D} {chan chan' : Fin n → Fin n → List (List Sds)}
  {q r : Fin n} {s : Stream}

theorem Carrying.congr (h : Carrying cfg c chan) (he : ∀ q r, q ≠ r → chan' q r = chan q r) :
    Carrying cfg c chan' :=
  ⟨fun q r hqr => he q r hqr ▸ h.carries q r hqr, h.flags,
    fun q r hqr a ha => h.sendable q r hqr a (he q r hqr ▸ ha)⟩

/-- One link is replaced. -/
theorem Carrying.setStream (h : Carrying cfg c chan) {todo : List (List Sds)}
    (hs : s.Carries todo) (hf : s.out.flags = linkFlags 1) (hv : ∀ a ∈ todo, Sendable cfg a) :
    Carrying cfg (c.setStream q r s) fun a b => if a = q ∧ b = r then todo else chan a b := by
  refine ⟨fun a b hab => ?_, fun a b hab => ?_, fun a b hab => ?_⟩
  all_goals
    by_cases heq : a = q ∧ b = r
    · simpa [Cluster.setStream, heq] using ‹_›
    · simp only [Cluster.setStream, if_neg heq]
      first
        | exact h.carries a b hab
        | exact h.flags a b hab
        | exact h.sendable a b hab

/-- One link is replaced by one that carries the same. -/
theorem Carrying.keepStream (h : Carrying cfg c chan) (hqr : q ≠ r)
    (hs : s.Carries (chan q r)) (hf : s.out.flags = linkFlags 1) :
    Carrying cfg (c.setStream q r s) chan := by
  refine (h.setStream hs hf (h.sendable q r hqr)).congr fun a b _ => ?_
  split
  · rename_i heq
    rw [heq.1, heq.2]
  · rfl

theorem Carrying.sync (h : Carrying cfg c chan) (hrq : r ≠ q) :
    Carrying cfg (c.sync r q) chan := by
  unfold Cluster.sync
  split
  · have h₁ := h.keepStream hrq (h.carries r q hrq).closeOut (h.flags r q hrq)
    exact h₁.keepStream hrq.symm (h₁.carries q r hrq.symm).closeInp (h₁.flags q r hrq.symm)
  · exact h

@[simp] theorem Cluster.setStream_db (c : Cluster n D) (q r : Fin n) (s : Stream) :
    (c.setStream q r s).db = c.db := rfl

@[simp] theorem Cluster.sync_db (c : Cluster n D) (r q : Fin n) : (c.sync r q).db = c.db := by
  unfold Cluster.sync
  split <;> rfl

@[simp] theorem Cluster.setStream_freed (c : Cluster n D) (q r : Fin n) (s : Stream) :
    (c.setStream q r s).freed = c.freed := rfl

@[simp] theorem Cluster.sync_freed (c : Cluster n D) (r q : Fin n) :
    (c.sync r q).freed = c.freed := by
  unfold Cluster.sync
  split <;> rfl

theorem Carrying.lose (h : Carrying cfg c chan) (hrq : r ≠ q) :
    Carrying cfg (c.lose r q) chan :=
  (h.keepStream hrq.symm (h.carries q r hrq.symm).closeInp (h.flags q r hrq.symm)).sync hrq

@[simp] theorem Cluster.lose_db (c : Cluster n D) (r q : Fin n) : (c.lose r q).db = c.db := by
  simp [Cluster.lose]

/-- An event that adds nothing to the output. -/
theorem Carrying.write (h : Carrying cfg c chan) (hrq : r ≠ q) (E : OutEnv) {e : OutEv}
    (he : e.adds (linkFlags 1) = []) (hn : e.next (linkFlags 1) = linkFlags 1) :
    ∃ c', c.write E r q e = some c' ∧ c'.db = c.db ∧ Carrying cfg c' chan := by
  obtain ⟨s, hw, -, hf, hkeep, -⟩ := (h.carries r q hrq).write E e
  rw [h.flags r q hrq] at hf hkeep
  exact ⟨c.setStream r q s, by simp [Cluster.write, hw], rfl,
    h.keepStream hrq (hkeep he) (hf.trans hn)⟩

theorem Carrying.replies (h : Carrying cfg c chan) (hrq : r ≠ q) (E : OutEnv) (rs : List Sds) :
    ∃ c', rs.foldlM (Cluster.reply E r q) c = some c' ∧ c'.db = c.db ∧ Carrying cfg c' chan := by
  induction rs generalizing c with
  | nil => exact ⟨c, rfl, rfl, h⟩
  | cons s rs ih =>
    have hdrop : (OutEv.reply s).adds (linkFlags 1) = [] := by
      simp [OutEv.adds, linkFlags_accepts (j := 1) (by decide)]
    obtain ⟨c₁, hw, hdb, h₁⟩ := h.write hrq E hdrop rfl
    obtain ⟨c', hrun, hdb', h'⟩ := ih h₁
    exact ⟨c', by rw [List.foldlM_cons, Cluster.reply, hw]; exact hrun, hdb'.trans hdb, h'⟩

/-- A message is written to the links `qs`. -/
theorem Carrying.broadcast (h : Carrying cfg c chan) (E : OutEnv) {m : List Sds}
    (hm : Sendable cfg m) (qs : List (Fin n)) (hnd : qs.Nodup) (hr : r ∉ qs)
    (hfreed : ∀ q ∈ qs, c.freed r q = false) :
    ∃ c', c.broadcast E r m qs = some c' ∧ c'.db = c.db ∧
      Carrying cfg c' fun a b => if a = r ∧ b ∈ qs then chan a b ++ [m] else chan a b := by
  induction qs generalizing c chan with
  | nil => exact ⟨c, rfl, rfl, h.congr fun a b _ => by simp⟩
  | cons q qs ih =>
    obtain ⟨hq, hnd⟩ := List.nodup_cons.mp hnd
    have hrq : r ≠ q := fun he => hr (he ▸ List.mem_cons_self)
    obtain ⟨s, hw, -, hf, -, hsend⟩ := (h.carries r q hrq).write E (.message m)
    rw [h.flags r q hrq] at hf hsend
    have hadds : (OutEv.message m).adds (linkFlags 1) = respCommand m := by
      simp [OutEv.adds, linkFlags_message]
    have hv : ∀ a ∈ chan r q ++ [m], Sendable cfg a := by
      intro a ha
      rcases List.mem_append.mp ha with ha | ha
      · exact h.sendable r q hrq a ha
      · exact List.mem_singleton.mp ha ▸ hm
    have h₁ := (h.setStream (q := r) (r := q) (hsend m hadds) hf hv).sync hrq
    obtain ⟨c', hrun, hdb, h'⟩ := ih h₁ hnd (fun hmem => hr (List.mem_cons_of_mem q hmem))
      fun q' hq' => by simpa using hfreed q' (List.mem_cons_of_mem q hq')
    refine ⟨c', ?_, by simpa using hdb, h'.congr fun a b _ => ?_⟩
    · unfold Cluster.broadcast at hrun ⊢
      rw [List.foldlM_cons, if_neg (by simp [hfreed q List.mem_cons_self]), Cluster.write, hw]
      exact hrun
    · by_cases ha : a = r
      · subst ha
        by_cases hb : b = q
        · subst hb
          simp [hq]
        · simp [hb]
      · simp [ha]

theorem nodup_links (r : Fin n) : (links r).Nodup := (List.nodup_finRange n).filter _

theorem mem_links {q r : Fin n} : q ∈ links r ↔ q ≠ r := by simp [links]

/-- A message is written to every link of `r`, as to its channels. -/
theorem Carrying.send (h : Carrying cfg c chan) (E : OutEnv) {m : List Sds}
    (hm : Sendable cfg m) (r : Fin n) (hfreed : ∀ q, q ≠ r → c.freed r q = false) :
    ∃ c', c.broadcast E r m (links r) = some c' ∧ c'.db = c.db ∧
      Carrying cfg c' fun a b => if a = r then chan a b ++ [m] else chan a b := by
  obtain ⟨c', hrun, hdb, h'⟩ := h.broadcast E hm (links r) (nodup_links r)
    (fun hmem => mem_links.mp hmem rfl) (fun q hq => hfreed q (mem_links.mp hq))
  refine ⟨c', hrun, hdb, h'.congr fun a b hab => ?_⟩
  by_cases ha : a = r
  · subst ha
    simp [mem_links, hab.symm]
  · simp [ha]

end Carrying

/-! ## The cluster over channels -/

section Refines

variable {P} {cfg : InCfg} {ok : Fin n → D → List Sds → Prop} {c : Cluster n D}
  {chan : Fin n → Fin n → List (List Sds)} {q r : Fin n}

/-- The commands that `r` read from `q` are executed. -/
theorem Carrying.execAll (cmds : List (List Sds)) (hqr : q ≠ r) (h : Carrying cfg c chan)
    (hreach : (argvObj P).ChanReach ok
      ⟨c.db, fun a b => if a = q ∧ b = r then cmds ++ chan q r else chan a b⟩)
    (E : OutEnv) (replies : List Sds → List Sds) :
    ∃ c', cmds.foldlM (Cluster.exec P E replies r q) c = some c' ∧ Carrying cfg c' chan ∧
      (argvObj P).ChanReach ok ⟨c'.db, chan⟩ := by
  induction cmds generalizing c with
  | nil =>
    refine ⟨c, rfl, h, ?_⟩
    have hsame : (fun a b => if a = q ∧ b = r then [] ++ chan q r else chan a b) = chan := by
      funext a b
      split
      · rename_i heq
        rw [heq.1, heq.2, List.nil_append]
      · rfl
    rwa [hsame] at hreach
  | cons a cmds ih =>
    have h₁ : Carrying cfg
        { c with db := Function.update c.db r ((argvObj P).effect r (c.db r) a) } chan :=
      ⟨h.carries, h.flags, h.sendable⟩
    obtain ⟨c₂, hrep, hdb, h₂⟩ := h₁.replies hqr.symm E (replies a)
    have hexec : Cluster.exec P E replies r q c a = some c₂ := by
      simp only [Cluster.exec, ServerProgram.receive_eq, List.foldlM_nil]
      exact hrep
    have hfirst : (if q = q ∧ r = r then a :: cmds ++ chan q r else chan q r) =
        a :: (cmds ++ chan q r) := by simp
    have htake := hreach.take hqr hfirst
    have hchan : (argvObj P).take
        ⟨c.db, fun x y => if x = q ∧ y = r then a :: cmds ++ chan q r else chan x y⟩ q r a
          (cmds ++ chan q r) =
        ⟨c₂.db, fun x y => if x = q ∧ y = r then cmds ++ chan q r else chan x y⟩ := by
      simp only [Obj.take, hdb]
      congr 1
      funext x y
      split <;> rfl
    rw [hchan] at htake
    obtain ⟨c', hrun, h', hreach'⟩ := ih h₂ htake
    exact ⟨c', by rw [List.foldlM_cons, hexec]; exact hrun, h', hreach'⟩

/-- What `r` read from `q` is executed. -/
theorem Carrying.input (h : Carrying cfg c chan) (hqr : q ≠ r)
    (hreach : (argvObj P).ChanReach ok ⟨c.db, chan⟩) {s : Stream} {cmds todo : List (List Sds)}
    (hout : s.out = (c.stream q r).out) (hchan : chan q r = cmds ++ todo) (hs : s.Carries todo)
    (E : OutEnv) (replies : List Sds → List Sds) :
    ∃ c' chan', (cmds.foldlM (Cluster.exec P E replies r q) (c.setStream q r s)).map
        (Cluster.sync r q) = some c' ∧ Carrying cfg c' chan' ∧
      (argvObj P).ChanReach ok ⟨c'.db, chan'⟩ := by
  have hv : ∀ a ∈ todo, Sendable cfg a := fun a ha =>
    h.sendable q r hqr a (hchan ▸ List.mem_append_right cmds ha)
  have h₁ := h.setStream (q := q) (r := r) hs (by rw [hout, h.flags q r hqr]) hv
  have hback : (fun a b => if a = q ∧ b = r then
      cmds ++ (if q = q ∧ r = r then todo else chan q r)
      else if a = q ∧ b = r then todo else chan a b) = chan := by
    funext a b
    by_cases heq : a = q ∧ b = r
    · rw [if_pos heq, if_pos ⟨rfl, rfl⟩, heq.1, heq.2, hchan]
    · rw [if_neg heq, if_neg heq]
  obtain ⟨c', hrun, h', hreach'⟩ :=
    h₁.execAll cmds hqr (by rw [hback]; exact hreach) E replies
  exact ⟨c'.sync r q, _, by rw [hrun]; rfl, h'.sync hqr.symm, by rwa [Cluster.sync_db]⟩

/-- **One event of a cluster.** -/
theorem clusterStep_spec (h : Carrying cfg c chan) (hreach : (argvObj P).ChanReach ok ⟨c.db, chan⟩)
    (e : ClusterEv n) (he : e.Ok P cfg ok c) :
    ∃ c' chan', clusterStep P cfg c e = some c' ∧ Carrying cfg c' chan' ∧
      (argvObj P).ChanReach ok ⟨c'.db, chan'⟩ := by
  cases e with
  | request r E argv =>
    obtain ⟨hok, hsend⟩ := he
    simp only [clusterStep, ServerProgram.request_eq]
    rcases hp : (argvObj P).prepare r (c.db r) argv with ⟨db, m⟩
    cases m with
    | none => exact ⟨_, chan, rfl, ⟨h.carries, h.flags, h.sendable⟩, hreach.reject hok hp⟩
    | some m =>
      have h₁ : Carrying cfg
          { c with db := Function.update c.db r ((argvObj P).effect r db m) } chan :=
        ⟨h.carries, h.flags, h.sendable⟩
      obtain ⟨hm, hfreed⟩ := hsend m (by rw [hp])
      obtain ⟨c', hrun, hdb, h'⟩ := h₁.send E hm r hfreed
      refine ⟨c', _, ?_, h', ?_⟩
      · simp only [List.foldlM_cons, hrun, List.foldlM_nil]
        rfl
      · rw [hdb]
        exact hreach.send hok hp
  | io r q E e =>
    simp only [clusterStep]
    split
    · exact ⟨c, chan, rfl, h, hreach⟩
    · rename_i hno
      obtain ⟨hrq, -⟩ := not_or.mp hno
      obtain ⟨c', hw, hdb, h'⟩ := h.write hrq E (e.adds_eq _).1 (e.adds_eq _).2
      exact ⟨c'.sync r q, chan, by rw [hw]; rfl, h'.sync hrq, by rwa [Cluster.sync_db, hdb]⟩
  | read r q E k halt replies =>
    simp only [clusterStep]
    split
    · exact ⟨c, chan, rfl, h, hreach⟩
    · rename_i hno
      have hqr : q ≠ r := fun he => hno (.inl he.symm)
      obtain ⟨s, cmds, todo, hread, hout, hchan, hs⟩ :=
        (h.carries q r hqr).read (h.sendable q r hqr) halt k
      rw [hread]
      exact h.input hqr hreach hout hchan hs E replies
  | resume r q E halt replies =>
    simp only [clusterStep]
    split
    · exact ⟨c, chan, rfl, h, hreach⟩
    · rename_i hno
      have hqr : q ≠ r := fun he => hno (.inl he.symm)
      obtain ⟨s, cmds, todo, hread, hout, hchan, hs, -⟩ :=
        (h.carries q r hqr).resume (h.sendable q r hqr) halt
      rw [hread]
      exact h.input hqr hreach hout hchan hs E replies
  | lose r q =>
    simp only [clusterStep]
    split
    · exact ⟨c, chan, rfl, h, hreach⟩
    · rename_i hno
      exact ⟨_, chan, rfl, h.lose (not_or.mp hno).1, by rwa [Cluster.lose_db]⟩
  | free r q =>
    simp only [clusterStep]
    split
    · exact ⟨c, chan, rfl, h, hreach⟩
    · rename_i hno
      have hl : Carrying cfg (c.lose r q) chan := h.lose (not_or.mp hno).1
      exact ⟨_, chan, rfl, ⟨hl.carries, hl.flags, hl.sendable⟩, by simpa using hreach⟩

/-- Every state of a cluster is one of the system with channels. -/
theorem ClusterReach.chans (h : ClusterReach P cfg ok c) :
    ∃ chan, Carrying cfg c chan ∧ (argvObj P).ChanReach ok ⟨c.db, chan⟩ := by
  induction h with
  | start hs =>
    refine ⟨fun _ _ => [], ⟨hs.carries, hs.flags, nofun⟩, ?_⟩
    rw [hs.db]
    exact .start
  | step e _ he hstep ih =>
    obtain ⟨chan, hc, hreach⟩ := ih
    obtain ⟨c', chan', hstep', h'⟩ := clusterStep_spec hc hreach e he
    rw [hstep] at hstep'
    cases hstep'
    exact ⟨chan', h'⟩

/-- Nothing is pending, on the way or in the buffer of a reader, and no reader is closed. -/
def Cluster.Quiescent (c : Cluster n D) : Prop :=
  ∀ q r, q ≠ r → (c.stream q r).out.pending = [] ∧ (c.stream q r).wire = [] ∧
    (c.stream q r).inp.querybuf = [] ∧ (c.stream q r).inp.closed = false

/-- Every state of a cluster is one of the broadcast system. In a quiescent state the channels are
empty. -/
theorem ClusterReach.sys (h : ClusterReach P cfg ok c) :
    ∃ s, (∃ chan, ChanRefines (argvObj P) ok ⟨c.db, chan⟩ s) ∧
      (c.Quiescent → ∀ q r, s.recv q = s.recv r) := by
  obtain ⟨chan, hc, hreach⟩ := h.chans
  obtain ⟨s, hs⟩ := hreach.refines
  refine ⟨s, ⟨chan, hs⟩, fun hq => hs.recv_eq fun q r hqr => ?_⟩
  obtain ⟨hp, hw, hb, ho⟩ := hq q r hqr
  have hsync := ((hc.carries q r hqr).synced).resolve_left (by simp [ho])
  exact hsync.eq_nil (by simp [In.rest, hb]) (by simp [hp, hw])

end Refines

/-- The links after the handshakes. -/
def clusterNew (P : ServerProgram n D W) : Cluster n D :=
  ⟨P.init, fun _ _ => ⟨{ Out.new with flags := linkFlags 1 }, [], In.new⟩, fun _ _ => false⟩

theorem clusterNew_start (P : ServerProgram n D W) : ClusterStart P (clusterNew P) :=
  ⟨rfl, fun _ _ _ => ⟨Out.Wf.new.setFlags _, Out.Scheduled.new.setFlags _, rfl,
    .inr (.idle .new rfl)⟩, fun _ _ _ => rfl, fun _ _ => rfl⟩

/-- The run of a list of events. -/
def clusterRun (P : ServerProgram n D W) (cfg : InCfg) (c : Cluster n D) (es : List (ClusterEv n)) :
    Option (Cluster n D) := es.foldlM (clusterStep P cfg) c

/-- The requests of a run satisfy what they have to. -/
def RunOk (P : ServerProgram n D W) (cfg : InCfg) (ok : Fin n → D → List Sds → Prop) :
    Cluster n D → List (ClusterEv n) → Prop
  | _, [] => True
  | c, e :: es => e.Ok P cfg ok c ∧ ∀ c', clusterStep P cfg c e = some c' → RunOk P cfg ok c' es

theorem ClusterReach.run {P : ServerProgram n D W} {cfg : InCfg}
    {ok : Fin n → D → List Sds → Prop} {c c' : Cluster n D} {es : List (ClusterEv n)}
    (hc : ClusterReach P cfg ok c) (hok : RunOk P cfg ok c es)
    (hrun : clusterRun P cfg c es = some c') : ClusterReach P cfg ok c' := by
  induction es generalizing c with
  | nil =>
    cases hrun
    exact hc
  | cons e es ih =>
    rw [clusterRun, List.foldlM_cons] at hrun
    cases hstep : clusterStep P cfg c e with
    | none =>
      rw [hstep] at hrun
      cases hrun
    | some d =>
      rw [hstep] at hrun
      exact ih (.step e hc hok.1 hstep) (hok.2 d hstep) hrun

/-- **The cluster refines the replicated object**: in every state that a cluster of servers reaches,
whatever the order of the events, the cuts of the bytes, the pauses, the connections that are lost
and the clients that are freed, as long as a server that has freed the client of a link sends no
message, the databases are those of a run of the object with FIFO delivery; no event makes an
assertion fail or uses a client that was freed. In a quiescent state every server has applied every
message. -/
theorem cluster_refines (P : ServerProgram n D W) (cfg : InCfg)
    (ok : Fin n → D → List Sds → Prop) (c : Cluster n D) (hc : ClusterReach P cfg ok c) :
    (∃ s, (argvObj P).Reach (fifoOf ok) s ∧ s.st = c.db ∧
      (c.Quiescent → ∀ q r, s.recv q = s.recv r)) ∧
    ∀ e : ClusterEv n, e.Ok P cfg ok c → ∃ c', clusterStep P cfg c e = some c' := by
  obtain ⟨s, ⟨_, hs⟩, hrecv⟩ := hc.sys
  refine ⟨⟨s, hs.reach, hs.st, hrecv⟩, fun e he => ?_⟩
  obtain ⟨chan, h, hreach⟩ := hc.chans
  obtain ⟨c', -, hstep, -⟩ := clusterStep_spec h hreach e he
  exact ⟨c', hstep⟩

end CrdtRedis

import CrdtRedis.RwfZset

/-!
# The commands of a client and their broadcast (`server.c`, `multi.c`, `scripting.c`)

A CRDT write runs in two phases (`CRDT.h`). For a client, the prepare phase reads `argv` and builds
`rargv`: `argv` and the arguments that the phase adds. The effect phase reads `rargv`. `call`
appends `rargv`, if there is one, to every link to a replica; a command that comes over such a link
runs its effect phase on its own `argv`. `resetClient` frees `rargv` when a request is done. The
commands that a script calls are those of `lua_client`, whose `rargv` is never freed.

The commands are a parameter (`CrdtTable`): what the two phases of a write do to the database and,
in place, to the arguments, which `argv` and `rargv` share. Arguments are values of a type `A`; the
strings that encode them are not modelled.

`specReq` says what a request should do: each write whose prepare phase succeeds takes effect on its
own arguments, and each link gets the one message of these arguments.

* `process_spec`: a request does that, unless it is an `EXEC` of a block with writes or a script
  that calls a command after a write: `call` is nested there, `rargv` is not freed between the
  commands, and so every later `call`, that of `EXEC` included, sends it again, and a later write
  adds its arguments to it. For scripts this holds over all scripts that the server ever runs.
* `exactly_once`: so it holds of every sequence of requests without such blocks and calls (`ReqOk`).
* `exec_broadcasts_again`: a block of two adds of the RWF queue, and two scripts with one add each.
-/

namespace CrdtRedis

/-- The phases of the CRDT writes `W` on a database `D`. The prepare phase returns the arguments
that it adds, or `none` if it replies with an error. -/
structure CrdtTable (A D W : Type) where
  prepare : W → D → List A → D × Option (List A)
  effect : W → D → List A → D
  /-- `argv` as the prepare phase leaves it: it may change the text of an argument in place. -/
  prepared : W → D → List A → List A := fun _ _ argv => argv
  /-- `rargv` as the effect phase leaves it. -/
  left : W → D → List A → List A := fun _ _ rargv => rargv

/-- `rargv`, `rargc` and the number of entries that were allocated. -/
structure Rargv (A : Type) where
  args : List A
  capacity : ℕ

/-- The part of the server that commands use: the database, the output of each link in
`server.replicas`, `p2p_count`, and `rargv` of `lua_client`. -/
structure Server (A D : Type) where
  db : D
  replicas : List (List (List A))
  p2pCount : ℕ
  lua : Option (Rargv A)

/-- What a command that a script may call does: it is a CRDT write, or any other command. -/
inductive Call (D W : Type) where
  | crdt (w : W)
  | other (f : D → D)

/-- What a command that may be queued does: it is one of these, or it runs a script (`EVAL`), which
calls some of them. Which ones, and with what arguments, may depend on all that the script sees. -/
inductive Proc (A D W : Type) where
  | call (k : Call D W)
  | script (calls : Server A D → List (Call D W × List A))

/-- A command with its arguments. -/
structure Command (A D W : Type) where
  proc : Proc A D W
  argv : List A

/-- The part of a client that matters here: the flags `CLIENT_REPLICA`, `CLIENT_MULTI`,
`CLIENT_DIRTY_EXEC` and `CLIENT_DIRTY_CAS`, the queued commands and `rargv`. -/
structure Client (A D W : Type) where
  replica : Bool
  multi : Bool
  dirtyExec : Bool
  dirtyCas : Bool
  mstate : List (Command A D W)
  rargv : Option (Rargv A)

/-- A client that connects. -/
def clientNew {A D W : Type} : Client A D W := ⟨false, false, false, false, [], none⟩

/-- A request of the client: a command that may be queued or is run at once, the commands of
transactions, a command that `processCommand` refuses (unknown, wrong arity, …); `touch` is no
request: another client changes a watched key. `EXEC` checks the permission of each queued command
again. -/
inductive Req (A D W : Type) where
  | cmd (c : Command A D W)
  | multi
  | discard
  | watch
  | exec (allowed : Command A D W → Bool)
  | refused
  | touch

variable {A D W : Type} (T : CrdtTable A D W)

/-- `ADDITIONAL_CAPACITY`. -/
def additionalCapacity : ℕ := 4

/-- `_RARGV_ADD`, with the variable `__capacity__` of the running command. -/
def rargvAdd (argv : List A) (p : ℕ × Option (Rargv A)) (obj : A) : ℕ × Option (Rargv A) :=
  let r := p.2.getD ⟨argv, p.1⟩
  if r.args.length = p.1 then
    let capacity := 2 * p.1 - argv.length
    (capacity, some ⟨r.args ++ [obj], capacity⟩)
  else (p.1, some { r with args := r.args ++ [obj] })

/-- `rargv` after a prepare phase that added `added`. -/
def rargvAddAll (argv : List A) (rargv : Option (Rargv A)) (added : List A) : Rargv A :=
  let p := added.foldl (rargvAdd argv) (argv.length + additionalCapacity, rargv)
  p.2.getD ⟨argv, p.1⟩

/-- `REPLICATION_MODE`. -/
def Server.replicationMode (s : Server A D) : Bool := !s.replicas.isEmpty || s.p2pCount != 0

/-- `CRDT_BEGIN` to `CRDT_END`: a CRDT write. -/
def crdtCommand (w : W) (argv : List A) (s : Server A D) (c : Client A D W) :
    Server A D × Client A D W :=
  if !s.replicationMode then (s, c)
  else if !c.replica then
    match T.prepare w s.db argv with
    | (db, none) => ({ s with db := db }, c)
    | (db, some added) =>
      let r := rargvAddAll (T.prepared w s.db argv) c.rargv added
      ({ s with db := T.effect w db r.args },
        { c with rargv := some { r with args := T.left w db r.args } })
  else ({ s with db := T.effect w s.db ((c.rargv.map Rargv.args).getD []) }, c)

/-- `c->cmd->proc`, of a command that is no script. -/
def runCall (k : Call D W) (argv : List A) (s : Server A D) (c : Client A D W) :
    Server A D × Client A D W :=
  match k with
  | .crdt w => crdtCommand T w argv s c
  | .other f => ({ s with db := f s.db }, c)

/-- `replicationBroadcast`. -/
def replicationBroadcast (s : Server A D) (argv : List A) : Server A D :=
  { s with replicas := s.replicas.map (· ++ [argv]) }

/-- `call`, for a command with arguments `argv` that runs `proc`. -/
def call (argv : List A) (proc : Server A D → Client A D W → Server A D × Client A D W)
    (s : Server A D) (c : Client A D W) : Server A D × Client A D W :=
  let c := if c.replica then { c with rargv := some ⟨argv, argv.length⟩ } else c
  let (s, c) := proc s c
  let s := match c.rargv with
    | some r => if !c.replica then replicationBroadcast s r.args else s
    | none => s
  (s, if c.replica then { c with rargv := none } else c)

/-- `server.lua_client`. -/
def luaClient (s : Server A D) : Client A D W := { clientNew with rargv := s.lua }

/-- `luaRedisGenericCommand`: a call of a script. It frees what the call leaves in `lua_client`
except `rargv`. -/
def luaCall (s : Server A D) (k : Call D W × List A) : Server A D :=
  let (s, c) := call k.2 (runCall T k.1 k.2) s (luaClient s)
  { s with lua := c.rargv }

/-- `c->cmd->proc`. -/
def runProc (cmd : Command A D W) (s : Server A D) (c : Client A D W) :
    Server A D × Client A D W :=
  match cmd.proc with
  | .call k => runCall T k cmd.argv s c
  | .script calls => ((calls s).foldl (luaCall T) s, c)

/-- `discardTransaction`. -/
def discardTransaction (c : Client A D W) : Client A D W :=
  { c with multi := false, dirtyExec := false, dirtyCas := false, mstate := [] }

/-- `flagTransaction`. -/
def flagTransaction (c : Client A D W) : Client A D W :=
  if c.multi then { c with dirtyExec := true } else c

/-- The loop of `execCommand` over the queued commands. -/
def execAll (allowed : Command A D W → Bool) (cmds : List (Command A D W)) (s : Server A D)
    (c : Client A D W) : Server A D × Client A D W :=
  cmds.foldl (fun p cmd =>
    if allowed cmd then call cmd.argv (runProc T cmd) p.1 p.2 else p) (s, c)

/-- `execCommand`. -/
def execCommand (allowed : Command A D W → Bool) (s : Server A D) (c : Client A D W) :
    Server A D × Client A D W :=
  if !c.multi then (s, c)
  else if c.dirtyCas || c.dirtyExec then (s, discardTransaction c)
  else
    let (s, c) := execAll T allowed c.mstate s c
    (s, discardTransaction c)

/-- `queueMultiCommand`. -/
def queueMultiCommand (cmd : Command A D W) (c : Client A D W) : Client A D W :=
  if c.dirtyExec then c else { c with mstate := c.mstate ++ [cmd] }

/-- `freeClientArgv`, in `resetClient`. -/
def resetClient (c : Client A D W) : Client A D W := { c with rargv := none }

/-- `processCommand` and the reset that follows it. `EXEC` and the like have no arguments that
matter. -/
def process (s : Server A D) (c : Client A D W) (q : Req A D W) : Server A D × Client A D W :=
  let (s, c) := match q with
    | .cmd cmd =>
      if c.multi then (s, queueMultiCommand cmd c) else call cmd.argv (runProc T cmd) s c
    | .multi => call [] (fun s c => (s, { c with multi := true })) s c
    | .discard => call [] (fun s c => (s, if c.multi then discardTransaction c else c)) s c
    | .watch => call [] (fun s c => (s, c)) s c
    | .exec allowed => call [] (execCommand T allowed) s c
    | .refused => (s, flagTransaction c)
    | .touch => (s, { c with dirtyCas := true })
  (s, resetClient c)

/-- What happens at the server: a request of the client, or something else, such as the commands of
other clients. -/
inductive Input (A D W : Type) where
  | req (q : Req A D W)
  | env (f : Server A D → Server A D)

/-- A run. -/
def runInputs (s : Server A D) (c : Client A D W) : List (Input A D W) →
    Server A D × Client A D W
  | [] => (s, c)
  | .req q :: is => runInputs (process T s c q).1 (process T s c q).2 is
  | .env f :: is => runInputs (f s) c is

/-! ## What a request should do -/

/-- A command that is no script: a write whose prepare phase succeeds takes effect on its own
arguments, and each link gets one message, of these arguments. -/
def specCall (s : Server A D) (k : Call D W) (argv : List A) : Server A D :=
  match k with
  | .other f => { s with db := f s.db }
  | .crdt w =>
    if !s.replicationMode then s
    else match T.prepare w s.db argv with
      | (db, none) => { s with db := db }
      | (db, some added) =>
        let rargv := T.prepared w s.db argv ++ added
        { s with
          db := T.effect w db rargv
          replicas := s.replicas.map (· ++ [T.left w db rargv]) }

/-- A call of a script. What `lua_client` has left is as it is. -/
def specLua (s : Server A D) (k : Call D W × List A) : Server A D :=
  { specCall T s k.1 k.2 with lua := (luaCall T s k).lua }

/-- A command. -/
def specCmd (s : Server A D) (cmd : Command A D W) : Server A D :=
  match cmd.proc with
  | .call k => specCall T s k cmd.argv
  | .script calls => (calls s).foldl (specLua T) s

/-- A request: the commands that it runs, one after the other. -/
def specReq (s : Server A D) (c : Client A D W) : Req A D W → Server A D
  | .cmd cmd => if c.multi then s else specCmd T s cmd
  | .exec allowed =>
    if c.multi && !c.dirtyCas && !c.dirtyExec then
      (c.mstate.filter allowed).foldl (specCmd T) s
    else s
  | _ => s

/-- It is a write that succeeds. -/
def Call.writes (s : Server A D) (k : Call D W) (argv : List A) : Bool :=
  match k with
  | .other _ => false
  | .crdt w => s.replicationMode && (T.prepare w s.db argv).2.isSome

/-- The client that sends the command runs a write that succeeds; a script runs as `lua_client`. -/
def writes (s : Server A D) (cmd : Command A D W) : Bool :=
  match cmd.proc with
  | .call k => k.writes T s cmd.argv
  | .script _ => false

/-- The number of writes of a block that succeed. -/
def countWrites (s : Server A D) : List (Command A D W) → ℕ
  | [] => 0
  | cmd :: cmds => (writes T s cmd).toNat + countWrites (specCmd T s cmd) cmds

/-- At each call of a script, no call of an earlier script or of this one has left its `rargv`;
where there are no links, this may be if the call is no write that succeeds. -/
def ScriptOk (s : Server A D) : List (Call D W × List A) → Prop
  | [] => True
  | k :: ks => (s.lua = none ∨ (s.replicas = [] ∧ k.1.writes T s k.2 = false)) ∧
      ScriptOk (luaCall T s k) ks

/-- So it is if the command is a script. -/
def CmdOk (s : Server A D) (cmd : Command A D W) : Prop :=
  match cmd.proc with
  | .call _ => True
  | .script calls => ScriptOk T s (calls s)

/-- So it is for the scripts of a block. -/
def BlockOk (s : Server A D) : List (Command A D W) → Prop
  | [] => True
  | cmd :: cmds => CmdOk T s cmd ∧ BlockOk (specCmd T s cmd) cmds

/-- An `EXEC` runs no block with a write that succeeds; where there are no links, it may have
one. Scripts are as above. -/
def ReqOk (s : Server A D) (c : Client A D W) : Req A D W → Prop
  | .cmd cmd => c.multi = false → CmdOk T s cmd
  | .exec allowed => c.multi = true → c.dirtyCas = false → c.dirtyExec = false →
      (countWrites T s (c.mstate.filter allowed) ≤ if s.replicas.isEmpty then 1 else 0) ∧
      BlockOk T s (c.mstate.filter allowed)
  | _ => True

/-- The run that does what it should, and the condition on each of its requests. The client's
flags and queue do not depend on what the commands do. -/
def specInputs (s : Server A D) (c : Client A D W) : List (Input A D W) → Server A D
  | [] => s
  | .req q :: is => specInputs (specReq T s c q) (process T s c q).2 is
  | .env f :: is => specInputs (f s) c is

def InputsOk (s : Server A D) (c : Client A D W) : List (Input A D W) → Prop
  | [] => True
  | .req q :: is => ReqOk T s c q ∧ InputsOk (process T s c q).1 (process T s c q).2 is
  | .env f :: is => InputsOk (f s) c is

/-! ## `rargv` -/

theorem rargvAdd_args (argv : List A) (p : ℕ × Option (Rargv A)) (obj : A) :
    ∃ r, (rargvAdd argv p obj).2 = some r ∧
      r.args = ((p.2.map Rargv.args).getD argv) ++ [obj] := by
  obtain ⟨k, r⟩ := p
  simp only [rargvAdd]
  split
  · exact ⟨_, rfl, by cases r <;> rfl⟩
  · exact ⟨_, rfl, by cases r <;> rfl⟩

/-- The arguments of a write: those that are there, or its own, and the ones that it adds. -/
theorem rargvAddAll_args (argv : List A) (rargv : Option (Rargv A)) (added : List A) :
    (rargvAddAll argv rargv added).args = ((rargv.map Rargv.args).getD argv) ++ added := by
  have : ∀ (p : ℕ × Option (Rargv A)) (l : List A),
      (((l.foldl (rargvAdd argv) p).2.map Rargv.args).getD argv) =
        ((p.2.map Rargv.args).getD argv) ++ l := by
    intro p l
    induction l generalizing p with
    | nil => simp
    | cons a l ih =>
      obtain ⟨r, hr, hargs⟩ := rargvAdd_args argv p a
      rw [List.foldl_cons, ih, hr]
      simp [hargs]
  rw [← this (argv.length + additionalCapacity, rargv) added]
  simp only [rargvAddAll]
  cases (added.foldl (rargvAdd argv) (argv.length + additionalCapacity, rargv)).2 <;> rfl

/-! ## One command -/

section Command

variable {T} {s : Server A D} {c : Client A D W} {cmd : Command A D W} {k : Call D W}
  {argv : List A}

/-- The broadcast of the `rargv` that a client has. -/
def broadcastRargv (s : Server A D) (rargv : Option (Rargv A)) : Server A D :=
  match rargv with
  | some r => replicationBroadcast s r.args
  | none => s

theorem replicationBroadcast_nil (h : s.replicas = []) (argv : List A) :
    replicationBroadcast s argv = s := by
  rcases s with ⟨db, links, n, lua⟩
  cases h
  rfl

theorem broadcastRargv_nil (h : s.replicas = []) (r : Option (Rargv A)) :
    broadcastRargv s r = s := by
  cases r with
  | none => rfl
  | some r => exact replicationBroadcast_nil h r.args

theorem specCall_replicas_nil : (specCall T s k argv).replicas = [] ↔ s.replicas = [] := by
  unfold specCall
  split
  · rfl
  · split
    · rfl
    · split <;> simp

theorem specCmd_replicas_nil : (specCmd T s cmd).replicas = [] ↔ s.replicas = [] := by
  unfold specCmd
  split
  · exact specCall_replicas_nil
  · rename_i calls _
    generalize calls s = ks
    induction ks generalizing s with
    | nil => rfl
    | cons k ks ih =>
      rw [List.foldl_cons, ih]
      exact specCall_replicas_nil

/-- A call of a client that is no link. -/
theorem call_client (hc : c.replica = false)
    {proc : Server A D → Client A D W → Server A D × Client A D W}
    (hp : (proc s c).2.replica = false) :
    call argv proc s c = (broadcastRargv (proc s c).1 (proc s c).2.rargv, (proc s c).2) := by
  simp only [call, hc, Bool.false_eq_true, if_false, hp, broadcastRargv, Bool.not_false, if_true]

/-- A command that is no successful write does what it should, and sends the `rargv` that is still
there. -/
theorem runCall_of_not_writes (hc : c.replica = false) (hw : k.writes T s argv = false) :
    runCall T k argv s c = (specCall T s k argv, c) := by
  unfold runCall specCall
  cases k with
  | other f => rfl
  | crdt w =>
    simp only [Call.writes] at hw
    simp only [crdtCommand, hc]
    split
    · rfl
    · rename_i hm
      simp only [Bool.not_false, if_true]
      rcases hprep : T.prepare w s.db argv with ⟨db, added⟩
      cases added with
      | none => rfl
      | some added => simp_all

/-- A write that succeeds, of a client without `rargv`, does what it should, and leaves its
`rargv`. -/
theorem call_of_writes (hc : c.replica = false) (hr : c.rargv = none)
    (hw : k.writes T s argv = true) :
    ∃ r, call argv (runCall T k argv) s c = (specCall T s k argv, { c with rargv := some r }) := by
  cases k with
  | other f => simp [Call.writes] at hw
  | crdt w =>
    simp only [Call.writes, Bool.and_eq_true] at hw
    obtain ⟨hmode, hsome⟩ := hw
    rcases hprep : T.prepare w s.db argv with ⟨db, added⟩
    cases added with
    | none => simp [hprep] at hsome
    | some added =>
      have hargs : (rargvAddAll (T.prepared w s.db argv) c.rargv added).args =
          T.prepared w s.db argv ++ added := by
        rw [rargvAddAll_args, hr]; rfl
      have hrun : runCall T (.crdt w) argv s c =
          ({ s with db := T.effect w db (T.prepared w s.db argv ++ added) },
            { c with rargv := some { rargvAddAll (T.prepared w s.db argv) c.rargv added with
              args := T.left w db (T.prepared w s.db argv ++ added) } }) := by
        simp [runCall, crdtCommand, hmode, hc, hprep, hargs]
      refine ⟨{ rargvAddAll (T.prepared w s.db argv) c.rargv added with
        args := T.left w db (T.prepared w s.db argv ++ added) }, ?_⟩
      rw [call_client hc (by rw [hrun]; exact hc), hrun]
      simp [broadcastRargv, replicationBroadcast, specCall, hmode, hprep]

/-- **A call of a script** does what it should, if no call before it has left its `rargv`. -/
theorem luaCall_spec {k : Call D W × List A}
    (h : s.lua = none ∨ (s.replicas = [] ∧ k.1.writes T s k.2 = false)) :
    luaCall T s k = specLua T s k := by
  -- It is a call of `lua_client`, which is no link.
  have hcall : (call k.2 (runCall T k.1 k.2) s (luaClient s)).1 = specCall T s k.1 k.2 := by
    cases hw : k.1.writes T s k.2 with
    | true =>
      have hlua : s.lua = none := h.resolve_right fun h => by simp [hw] at h
      obtain ⟨r, hcall⟩ := call_of_writes (c := luaClient s) rfl hlua hw
      rw [hcall]
    | false =>
      have hrun := runCall_of_not_writes (c := luaClient s) rfl hw
      rw [call_client rfl (by rw [hrun]; rfl), hrun]
      rcases h with hlua | ⟨hnil, -⟩
      · simp [luaClient, hlua, broadcastRargv]
      · exact broadcastRargv_nil (specCall_replicas_nil.mpr hnil) _
  rw [specLua, ← hcall]
  rfl

/-- A script does what it should. -/
theorem script_spec {ks : List (Call D W × List A)} (h : ScriptOk T s ks) :
    ks.foldl (luaCall T) s = ks.foldl (specLua T) s := by
  induction ks generalizing s with
  | nil => rfl
  | cons k ks ih =>
    obtain ⟨hk, h⟩ := h
    rw [List.foldl_cons, List.foldl_cons, ih h, luaCall_spec hk]

/-- A command of the client that runs no successful write as this client does what it should, and
sends the `rargv` that is still there. -/
theorem call_of_not_writes (hc : c.replica = false) (hok : CmdOk T s cmd)
    (hw : writes T s cmd = false) :
    call cmd.argv (runProc T cmd) s c = (broadcastRargv (specCmd T s cmd) c.rargv, c) := by
  have hrun : runProc T cmd s c = (specCmd T s cmd, c) := by
    rcases cmd with ⟨proc, argv⟩
    cases proc with
    | call k => exact runCall_of_not_writes hc hw
    | script calls => exact congrArg (·, c) (script_spec hok)
  rw [call_client hc (by rw [hrun]; exact hc), hrun]

/-- A write of the client that succeeds. -/
theorem call_cmd_of_writes (hc : c.replica = false) (hr : c.rargv = none)
    (hw : writes T s cmd = true) :
    ∃ r, call cmd.argv (runProc T cmd) s c = (specCmd T s cmd, { c with rargv := some r }) := by
  rcases cmd with ⟨proc, argv⟩
  cases proc with
  | call k => exact call_of_writes hc hr hw
  | script calls => cases hw

end Command

/-! ## Blocks and runs -/

section Runs

variable {T} {s : Server A D} {c : Client A D W}

/-- The loop of `EXEC` over the commands that it may run. -/
theorem execAll_filter (allowed : Command A D W → Bool) (cmds : List (Command A D W))
    (p : Server A D × Client A D W) :
    execAll T allowed cmds p.1 p.2 =
      (cmds.filter allowed).foldl (fun p cmd => call cmd.argv (runProc T cmd) p.1 p.2) p := by
  rw [execAll, List.foldl_filter]

/-- A block with no write that succeeds, or with one where there are no links. A client with a
`rargv` has had it. -/
theorem block_spec (hc : c.replica = false) (cmds : List (Command A D W))
    (hn : countWrites T s cmds ≤ if s.replicas.isEmpty then 1 else 0) (hb : BlockOk T s cmds)
    (hr : c.rargv ≠ none → s.replicas = [] ∧ countWrites T s cmds = 0) :
    ∃ r, cmds.foldl (fun p cmd => call cmd.argv (runProc T cmd) p.1 p.2) (s, c) =
        (cmds.foldl (specCmd T) s, { c with rargv := r }) ∧
      (r ≠ none → (cmds.foldl (specCmd T) s).replicas = []) := by
  induction cmds generalizing s c with
  | nil => exact ⟨c.rargv, rfl, fun h => (hr h).1⟩
  | cons cmd cmds ih =>
    simp only [countWrites] at hn hr
    simp only [List.foldl_cons]
    have hempty : (specCmd T s cmd).replicas.isEmpty = s.replicas.isEmpty := by
      rw [Bool.eq_iff_iff, List.isEmpty_iff, List.isEmpty_iff]
      exact specCmd_replicas_nil
    cases hw : writes T s cmd with
    | false =>
      simp only [hw, Bool.toNat_false, zero_add] at hn hr
      -- What is sent again goes to no link.
      have hcall : call cmd.argv (runProc T cmd) s c = (specCmd T s cmd, c) := by
        rw [call_of_not_writes hc hb.1 hw]
        cases hrc : c.rargv with
        | none => rfl
        | some r =>
          rw [broadcastRargv_nil (specCmd_replicas_nil.mpr (hr (by simp [hrc])).1)]
      rw [hcall]
      exact ih hc (by rw [hempty]; exact hn) hb.2 fun h =>
        ⟨specCmd_replicas_nil.mpr (hr h).1, (hr h).2⟩
    | true =>
      simp only [hw, Bool.toNat_true] at hn hr
      have hrc : c.rargv = none := by
        by_contra h
        have := (hr h).2
        omega
      obtain ⟨r, hcall⟩ := call_cmd_of_writes hc hrc hw
      have hnil : s.replicas = [] := by
        by_contra h
        rw [if_neg (by simpa using h)] at hn
        omega
      rw [if_pos (by simp [hnil])] at hn
      rw [hcall]
      obtain ⟨r', hfold, hr'⟩ := ih (s := specCmd T s cmd) (c := { c with rargv := some r }) hc
        (by rw [hempty]; split <;> omega) hb.2 fun _ =>
          ⟨specCmd_replicas_nil.mpr hnil, by omega⟩
      exact ⟨r', hfold, hr'⟩

/-- A call that runs no command does nothing to the server. -/
theorem call_flags (hc : c.replica = false)
    {f : Client A D W → Client A D W} (hf : (f c).replica = false) (hfr : (f c).rargv = none) :
    call [] (fun s c => (s, f c)) s c = (s, f c) := by
  rw [call_client hc hf]
  simp [hfr, broadcastRargv]

/-- What an `EXEC` does to the server. -/
theorem exec_spec (hc : c.replica = false) (hr : c.rargv = none)
    {allowed : Command A D W → Bool} (hq : ReqOk T s c (.exec allowed)) :
    (call [] (execCommand T allowed) s c).1 = specReq T s c (.exec allowed) := by
  simp only [specReq]
  by_cases hm : c.multi = true
  · by_cases hd : (c.dirtyCas || c.dirtyExec) = true
    · have hex : execCommand T allowed s c = (s, discardTransaction c) := by
        simp [execCommand, hm, hd]
      rw [call_client hc (by rw [hex]; exact hc), hex, if_neg (by
        simp only [Bool.or_eq_true] at hd
        rcases hd with hd | hd <;> simp [hd])]
      simp [discardTransaction, hr, broadcastRargv]
    · simp only [Bool.or_eq_true, not_or, Bool.not_eq_true] at hd
      obtain ⟨hcount, hblock⟩ := hq hm hd.1 hd.2
      obtain ⟨r, hfold, hnil⟩ :=
        block_spec hc (c.mstate.filter allowed) hcount hblock fun h => absurd hr h
      have hex : execCommand T allowed s c =
          ((c.mstate.filter allowed).foldl (specCmd T) s,
            discardTransaction { c with rargv := r }) := by
        rw [execCommand, if_neg (by simp [hm]), if_neg (by simp [hd.1, hd.2]),
          execAll_filter allowed c.mstate (s, c), hfold]
      rw [call_client hc (by rw [hex]; exact hc), hex, if_pos (by simp [hm, hd.1, hd.2])]
      cases r with
      | none => rfl
      | some r => exact broadcastRargv_nil (hnil (by simp)) (some r)
  · have hex : execCommand T allowed s c = (s, c) := by simp [execCommand, hm]
    rw [call_client hc (by rw [hex]; exact hc), hex, if_neg (by simp [hm])]
    simp [hr, broadcastRargv]

/-- **One request** of a client that is no link, without `rargv`: it does what it should. -/
theorem process_spec (hc : c.replica = false) (hr : c.rargv = none) {q : Req A D W}
    (hq : ReqOk T s c q) : (process T s c q).1 = specReq T s c q := by
  cases q with
  | cmd cmd =>
    simp only [process, specReq]
    split
    · rfl
    · rename_i hm
      cases hw : writes T s cmd with
      | false => rw [call_of_not_writes hc (hq (by simpa using hm)) hw, hr]; rfl
      | true =>
        obtain ⟨r, hcall⟩ := call_cmd_of_writes hc hr hw
        rw [hcall]
  | multi =>
    simp only [process, specReq, call_flags (f := fun c => { c with multi := true }) hc hc hr]
  | discard =>
    have h₁ : (if c.multi then discardTransaction c else c).replica = false := by
      split <;> exact hc
    have h₂ : (if c.multi then discardTransaction c else c).rargv = none := by
      split <;> exact hr
    simp only [process, specReq,
      call_flags (f := fun c => if c.multi then discardTransaction c else c) hc h₁ h₂]
  | watch => simp only [process, specReq, call_flags (f := fun c => c) hc hc hr]
  | refused => rfl
  | touch => rfl
  | exec allowed => exact exec_spec hc hr hq

/-- The command runs no script. -/
def Command.Plain (cmd : Command A D W) : Prop :=
  match cmd.proc with
  | .call _ => True
  | .script _ => False

/-- The request runs no script. -/
def Req.Plain (c : Client A D W) : Req A D W → Prop
  | .cmd k => k.Plain
  | .exec _ => ∀ k ∈ c.mstate, k.Plain
  | _ => True

/-- A step that keeps the flag `CLIENT_REPLICA`, and sends nothing for a client that is a link, if
it is `plain`. -/
def Quiet (plain : Client A D W → Prop)
    (step : Server A D → Client A D W → Server A D × Client A D W) : Prop :=
  ∀ s c, (step s c).2.replica = c.replica ∧
    (plain c → c.replica = true → (step s c).1.replicas = s.replicas)

/-- A step that changes the client's other flags only. -/
theorem Quiet.flags (plain : Client A D W → Prop) {f : Client A D W → Client A D W}
    (hf : ∀ c, (f c).replica = c.replica) : Quiet plain (fun (s : Server A D) c => (s, f c)) :=
  fun _ c => ⟨hf c, fun _ _ => rfl⟩

theorem Quiet.call {plain : Client A D W → Prop}
    {proc : Server A D → Client A D W → Server A D × Client A D W} (hp : Quiet plain proc)
    (hplain : ∀ c r, plain c → plain { c with rargv := r }) (argv : List A) :
    Quiet plain (call argv proc) := by
  intro s c
  cases hc : c.replica with
  | false =>
    have hpc : (proc s c).2.replica = false := (hp s c).1.trans hc
    rw [call_client hc hpc]
    exact ⟨hpc, fun _ h => by cases h⟩
  | true =>
    obtain ⟨hr, hs⟩ := hp s { c with rargv := some ⟨argv, argv.length⟩ }
    simp only [CrdtRedis.call, hc, if_true] at hr hs ⊢
    simp only [hr, Bool.not_true, Bool.false_eq_true, if_false, if_true]
    refine ⟨trivial, fun hpl _ => ?_⟩
    split <;> exact hs (by simpa only [hc] using hplain c _ hpl) trivial

theorem Quiet.runCall (T : CrdtTable A D W) (k : Call D W) (argv : List A) :
    Quiet (fun _ => True) (runCall T k argv) := by
  intro s c
  unfold CrdtRedis.runCall
  split
  · simp only [crdtCommand]
    split
    · exact ⟨rfl, fun _ _ => rfl⟩
    · split
      · split
        · exact ⟨rfl, fun _ _ => rfl⟩
        · exact ⟨rfl, fun _ _ => rfl⟩
      · exact ⟨rfl, fun _ _ => rfl⟩
  · exact ⟨rfl, fun _ _ => rfl⟩

theorem Quiet.runProc (T : CrdtTable A D W) (cmd : Command A D W) :
    Quiet (fun _ => cmd.Plain) (runProc T cmd) := by
  intro s c
  rcases cmd with ⟨proc, argv⟩
  cases proc with
  | call k => exact (Quiet.runCall T k argv s c).imp_right fun h _ => h trivial
  | script calls => exact ⟨rfl, fun h => h.elim⟩

theorem Quiet.execAll (T : CrdtTable A D W) (allowed : Command A D W → Bool)
    (cmds : List (Command A D W)) :
    Quiet (fun _ => ∀ cmd ∈ cmds, cmd.Plain) (execAll T allowed cmds) := by
  intro s c
  induction cmds generalizing s c with
  | nil => exact ⟨rfl, fun _ _ => rfl⟩
  | cons cmd cmds ih =>
    simp only [CrdtRedis.execAll, List.foldl_cons, List.forall_mem_cons] at ih ⊢
    split
    · obtain ⟨h₁, h₂⟩ := (Quiet.runProc T cmd).call (fun _ _ h => h) cmd.argv s c
      obtain ⟨h₃, h₄⟩ := ih (CrdtRedis.call cmd.argv (CrdtRedis.runProc T cmd) s c).1
        (CrdtRedis.call cmd.argv (CrdtRedis.runProc T cmd) s c).2
      exact ⟨h₃.trans h₁, fun hpl hc => (h₄ hpl.2 (h₁.trans hc)).trans (h₂ hpl.1 hc)⟩
    · exact (ih s c).imp_right fun h hpl => h hpl.2

theorem Quiet.execCommand (T : CrdtTable A D W) (allowed : Command A D W → Bool) :
    Quiet (fun c => ∀ cmd ∈ c.mstate, cmd.Plain) (execCommand T allowed) := by
  intro s c
  unfold CrdtRedis.execCommand
  split
  · exact ⟨rfl, fun _ _ => rfl⟩
  · split
    · exact ⟨rfl, fun _ _ => rfl⟩
    · exact Quiet.execAll T allowed c.mstate s c

/-- The whole of a request. -/
theorem Quiet.process (T : CrdtTable A D W) (q : Req A D W) :
    Quiet (fun c => q.Plain c) (fun s c => process T s c q) := by
  intro s c
  cases q with
  | cmd cmd =>
    simp only [CrdtRedis.process]
    split
    · refine ⟨?_, fun _ _ => rfl⟩
      show (queueMultiCommand cmd c).replica = c.replica
      unfold queueMultiCommand
      split <;> rfl
    · exact (Quiet.runProc T cmd).call (fun _ _ h => h) cmd.argv s c
  | multi =>
    exact (Quiet.flags (fun _ => True) (f := fun c => { c with multi := true }) fun _ => rfl).call
      (fun _ _ h => h) [] s c
  | discard =>
    exact (Quiet.flags (fun _ => True) (f := fun c => if c.multi then discardTransaction c else c)
      fun c => by split <;> rfl).call (fun _ _ h => h) [] s c
  | watch =>
    exact (Quiet.flags (fun _ => True) (f := fun c => c) fun _ => rfl).call (fun _ _ h => h) [] s c
  | exec allowed => exact (Quiet.execCommand T allowed).call (fun _ _ h => h) [] s c
  | refused =>
    refine ⟨?_, fun _ _ => rfl⟩
    show (flagTransaction c).replica = c.replica
    unfold flagTransaction
    split <;> rfl
  | touch => exact ⟨rfl, fun _ _ => rfl⟩

/-- **Exactly-once broadcast**: in every run of a client that is no link, whatever else happens at
the server between its requests, if no `EXEC` runs a block with successful writes (one where there
are no links) and no script calls a command when a script's write has left its `rargv` (only what
writes nothing where there are no links), then each write that succeeds takes effect on its own
arguments and gives each link one message, of these arguments, and no other message is sent. No
request without a script that comes over a link is sent again. -/
theorem exactly_once (T : CrdtTable A D W) :
    (∀ (s : Server A D) (is : List (Input A D W)), InputsOk T s clientNew is →
      (runInputs T s clientNew is).1 = specInputs T s clientNew is) ∧
    ∀ (s : Server A D) (c : Client A D W) (q : Req A D W), c.replica = true → q.Plain c →
      (process T s c q).1.replicas = s.replicas := by
  refine ⟨fun s is h => ?_, fun s c q hc hq => (Quiet.process T q s c).2 hq hc⟩
  -- Between requests the client is no link and has no `rargv`.
  have run : ∀ (is : List (Input A D W)) (s : Server A D) (c : Client A D W), c.replica = false →
      c.rargv = none → InputsOk T s c is → (runInputs T s c is).1 = specInputs T s c is := by
    intro is
    induction is with
    | nil => exact fun _ _ _ _ _ => rfl
    | cons i is ih =>
      intro s c hc hr h
      cases i with
      | req q =>
        have hp := process_spec hc hr h.1
        have hrec := ih (process T s c q).1 (process T s c q).2
          ((Quiet.process T q s c).1.trans hc) rfl h.2
        simp only [runInputs, specInputs, ← hp]
        exact hrec
      | env f => exact ih (f s) c hc hr h
  exact run is s clientNew rfl rfl h

end Runs

/-! ## The writes of the RWF queue -/

/-- The arguments of the commands of the queue: strings, numbers, and the clocks that the prepare
phases add. -/
inductive RwfzArg (n : ℕ) where
  | str (s : Sds)
  | num (v : ℚ)
  | clock (t : Clock n)
  deriving DecidableEq

/-- `rwfzadd`, `rwfzincrby`, `rwfzrem`. -/
inductive RwfzWrite where
  | add
  | incrby
  | rem

variable {n : ℕ}

def RwfzArg.toStr : RwfzArg n → Sds
  | .str s => s
  | _ => []

def RwfzArg.toNum : RwfzArg n → Option ℚ
  | .num v => some v
  | _ => none

def RwfzArg.toClock : RwfzArg n → Option (Clock n)
  | .clock t => some t
  | _ => none

/-- The third argument of a command of the queue, if it is a number. -/
def numArg (argv : List (RwfzArg n)) : Option ℚ := (argv[3]?).bind RwfzArg.toNum

def eleArg (argv : List (RwfzArg n)) : Sds := ((argv[2]?).map RwfzArg.toStr).getD []

/-- `CR_GET_LAST`. -/
def crGetLast (rargv : List (RwfzArg n)) : Option (Clock n) :=
  rargv.getLast?.bind RwfzArg.toClock

/-- The writes of one RWF queue at replica `r`. -/
def rwfzTable (r : Fin n) : CrdtTable (RwfzArg n) (Sds → RwfzCell n) RwfzWrite where
  prepare w db argv :=
    let o : ZCmd := match w with
      | .add => .zadd argv.length (numArg argv)
      | .incrby => .zincrby argv.length (numArg argv)
      | .rem => .zrem argv.length
    let p := rwfzPrepare r (db (eleArg argv)) o
    (Function.update db (eleArg argv) p.1, p.2.toOption.map fun m => [.clock m.t])
  effect w db rargv :=
    match crGetLast rargv with
    | none => db
    | some t =>
      let m : RwfzMsg n := match w with
        | .add => .add ((numArg rargv).getD 0) t
        | .incrby => .upd ((numArg rargv).getD 0) t
        | .rem => .rem t
      Function.update db (eleArg rargv) (rwfzEffect r (db (eleArg rargv)) m)

/-- Replica 0 of two, with an empty queue and one link. -/
def rwfzServer : Server (RwfzArg 2) (Sds → RwfzCell 2) :=
  ⟨fun _ => ⟨none, none⟩, [[]], 2, none⟩

/-- `rwfzadd q e v`. -/
def rwfzaddCmd (e : Sds) (v : ℚ) : Command (RwfzArg 2) (Sds → RwfzCell 2) RwfzWrite :=
  ⟨.call (.crdt .add), [.str "rwfzadd".toList, .str ['q'], .str e, .num v]⟩

/-- A script that reads `q` and then adds `e`. -/
def rwfzScript (e : Sds) (v : ℚ) : Command (RwfzArg 2) (Sds → RwfzCell 2) RwfzWrite :=
  ⟨.script fun _ => [(.other id, [.str "get".toList]), (.crdt .add, (rwfzaddCmd e v).argv)],
    [.str "eval".toList]⟩

/-- Writes, a block of commands that are no writes, and a script. -/
def rwfzSingly : List (Input (RwfzArg 2) (Sds → RwfzCell 2) RwfzWrite) :=
  [.req (.cmd (rwfzaddCmd ['a'] 5)), .req .multi,
    .req (.cmd ⟨.call (.other id), [.str "get".toList]⟩), .req (.exec fun _ => true),
    .req (.cmd (rwfzScript ['c'] 3)), .req (.cmd (rwfzaddCmd ['b'] 7))]

/-- The hypothesis holds of writes with a block and a script between them. -/
theorem exactly_once_singly :
    (runInputs (rwfzTable 0) rwfzServer clientNew rwfzSingly).1 =
      specInputs (rwfzTable 0) rwfzServer clientNew rwfzSingly :=
  (exactly_once (rwfzTable 0)).1 rwfzServer rwfzSingly
    ⟨fun _ => trivial, trivial, fun _ => trivial,
      fun _ _ _ => ⟨by decide +kernel, trivial, trivial⟩,
      fun _ => ⟨.inl rfl, .inl rfl, trivial⟩, fun _ => trivial, trivial⟩

/-- A block of two adds. -/
def rwfzBlock : List (Input (RwfzArg 2) (Sds → RwfzCell 2) RwfzWrite) :=
  [.req .multi, .req (.cmd (rwfzaddCmd ['a'] 5)), .req (.cmd (rwfzaddCmd ['b'] 7)),
    .req (.exec fun _ => true)]

/-- Two scripts, each with an add. -/
def rwfzScripts : List (Input (RwfzArg 2) (Sds → RwfzCell 2) RwfzWrite) :=
  [.req (.cmd (rwfzScript ['a'] 5)), .req (.cmd (rwfzScript ['b'] 7))]

/-- The link gets three messages for the two adds of the block, and none of them adds `b`: the
second add is executed on the arguments of the first, so the element `b` does not exist. So it is
with the two scripts, where the read of the second one sends the add of the first again. -/
theorem exec_broadcasts_again :
    let add (e : Sds) (v : ℚ) : List (RwfzArg 2) :=
      [.str "rwfzadd".toList, .str ['q'], .str e, .num v]
    let t : RwfzArg 2 := .clock (vcNew 0)
    let s := (runInputs (rwfzTable 0) rwfzServer clientNew rwfzBlock).1
    let s' := specInputs (rwfzTable 0) rwfzServer clientNew rwfzBlock
    let s₁ := (runInputs (rwfzTable 0) rwfzServer clientNew rwfzScripts).1
    (s.replicas = [[add ['a'] 5 ++ [t], add ['a'] 5 ++ [t, t], add ['a'] 5 ++ [t, t]]] ∧
      s'.replicas = [[add ['a'] 5 ++ [t], add ['b'] 7 ++ [t]]] ∧
      ((s.db ['b']).get 0).header.exists = false ∧
      ((s'.db ['b']).get 0).header.exists = true) ∧
    s₁.replicas = [[add ['a'] 5 ++ [t], add ['a'] 5 ++ [t], add ['a'] 5 ++ [t, t]]] ∧
      ((s₁.db ['b']).get 0).header.exists = false := by
  decide +kernel

end CrdtRedis

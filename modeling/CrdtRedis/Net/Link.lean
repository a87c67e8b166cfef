import CrdtRedis.Net.Input

/-!
# Links between servers (`p2p.c`, `networking.c`)

A server that connects to another one writes a handshake, marks its client as a replica and puts it
into `server.replicas` (`replicationHandler`). The other server does the same with its client when
it executes the handshake (`replicateCommand`). From then on a broadcast of either server is written
to its client, and replies to the commands that come over the link are dropped.

* `Stream`: one direction of a connection. `Stream.Carries`: the commands that were written and not
  executed.
* `Link`: both directions. An end is one client: what closes its output closes its input. A client
  that is freed stays in `server.replicas`, and the next broadcast uses it.
* `link_delivers`: what an end executes is a first part of what the other one broadcast, from the
  handshake on, for every order of events, every cut of the bytes, pauses and lost connections, as
  long as no server broadcasts after it has freed its client.
-/

namespace CrdtRedis

/-- One direction of a connection: the client that writes, the bytes on the way, and the client that
reads, at the other server. -/
structure Stream where
  out : Out
  wire : Sds
  inp : In

/-- An event of the output; what the socket takes is on the way. -/
def Stream.write (E : OutEnv) (e : OutEv) (s : Stream) : Option Stream :=
  (outStep E s.out e).map fun r => { s with out := r.1, wire := s.wire ++ r.2 }

/-- A read of up to `k` bytes, and the commands that it executes. -/
def Stream.read (cfg : InCfg) (halt : ℕ → Bool) (k : ℕ) (s : Stream) :
    Option (Stream × List (List Sds)) :=
  (readFrom cfg halt k s.inp s.wire).map fun r =>
    ({ s with inp := r.1, wire := r.2.1 }, r.2.2)

/-- The buffer is processed again, after a pause or when the client is not blocked any more
(`processUnblockedClients`). -/
def Stream.resume (cfg : InCfg) (halt : ℕ → Bool) (s : Stream) :
    Option (Stream × List (List Sds)) :=
  (processInputBuffer cfg halt s.inp).map fun r => ({ s with inp := r.1 }, r.2)

/-- The stream carries the commands `todo`: they were written and not executed. A reader that is
closed executes nothing more. -/
structure Stream.Carries (s : Stream) (todo : List (List Sds)) : Prop where
  wf : s.out.Wf
  scheduled : s.out.Scheduled
  qbPos : s.inp.qbPos = 0
  synced : s.inp.closed = true ∨ Synced s.inp (s.wire ++ s.out.pending) todo

section Stream

variable {cfg : InCfg} {s : Stream} {todo : List (List Sds)}

/-- An event of the output keeps what the stream carries; a message is carried as well. -/
theorem Stream.Carries.write (h : s.Carries todo) (E : OutEnv) (e : OutEv) :
    ∃ s', s.write E e = some s' ∧ s'.inp = s.inp ∧ s'.out.flags = e.next s.out.flags ∧
      (e.adds s.out.flags = [] → s'.Carries todo) ∧
      ∀ a, e.adds s.out.flags = respCommand a → s'.Carries (todo ++ [a]) := by
  obtain ⟨c, t, hstep, hwf, hsched, hflags, hpend⟩ := outStep_spec E h.wf h.scheduled e
  have hbytes : (s.wire ++ t) ++ c.pending =
      (s.wire ++ s.out.pending) ++ e.adds s.out.flags := by
    rw [List.append_assoc, hpend, List.append_assoc]
  refine ⟨{ s with out := c, wire := s.wire ++ t }, by simp [Stream.write, hstep], rfl, hflags,
    fun hadd => ⟨hwf, hsched, h.qbPos, h.synced.imp_right fun hs => ?_⟩,
    fun a hadd => ⟨hwf, hsched, h.qbPos, h.synced.imp_right fun hs => ?_⟩⟩
  · rw [hbytes, hadd, List.append_nil]
    exact hs
  · rw [hbytes, hadd]
    exact hs.send a

/-- A read executes the first commands that the stream carries. -/
theorem Stream.Carries.read (h : s.Carries todo) (hv : ∀ a ∈ todo, Sendable cfg a)
    (halt : ℕ → Bool) (k : ℕ) :
    ∃ s' done todo', s.read cfg halt k = some (s', done) ∧ s'.out = s.out ∧
      todo = done ++ todo' ∧ s'.Carries todo' := by
  rcases h.synced with hc | hs
  · obtain ⟨c', hread, hc', hpos⟩ := readQueryFromClient_closed cfg halt hc
      h.qbPos (if (s.wire.take (min k (readlen s.inp))).isEmpty then .again
        else .data (s.wire.take (min k (readlen s.inp))))
    refine ⟨{ s with inp := c', wire := s.wire.drop (min k (readlen s.inp)) }, [], todo, ?_, rfl,
      rfl, ⟨h.wf, h.scheduled, hpos, .inl hc'⟩⟩
    simp only [Stream.read, readFrom, hread, Option.map_some]
  · obtain ⟨c', wire', done, todo', hread, htodo, hpos, hres⟩ :=
      readFrom_spec halt k h.qbPos hs hv
    refine ⟨{ s with inp := c', wire := wire' }, done, todo', by simp [Stream.read, hread], rfl,
      htodo, ⟨h.wf, h.scheduled, hpos, hres.imp (fun hcl => hcl.1) fun hs' => hs'.1⟩⟩

/-- A pass over the buffer does the same. If nothing is on the way and nothing stops it, it executes
them all. -/
theorem Stream.Carries.resume (h : s.Carries todo) (hv : ∀ a ∈ todo, Sendable cfg a)
    (halt : ℕ → Bool) :
    ∃ s' done todo', s.resume cfg halt = some (s', done) ∧ s'.out = s.out ∧
      todo = done ++ todo' ∧ s'.Carries todo' ∧ (s.inp.closed = false → (∀ i, halt i = false) →
        s.wire = [] → s.out.pending = [] → todo' = []) := by
  rcases h.synced with hc | hs
  · obtain ⟨c', hp, hc', hpos⟩ := processInputBuffer_closed cfg halt hc
    exact ⟨{ s with inp := c' }, [], todo, by simp [Stream.resume, hp], rfl, rfl,
      ⟨h.wf, h.scheduled, hpos, .inl hc'⟩, fun ho => absurd hc (by simp [ho])⟩
  · obtain ⟨c', done, todo', hp, htodo, hs', hpos, hfree⟩ :=
      processInputBuffer_spec halt hs hv
    exact ⟨{ s with inp := c' }, done, todo', by simp [Stream.resume, hp], rfl, htodo,
      ⟨h.wf, h.scheduled, hpos, .inr hs'⟩, fun _ hgo hwire hpend =>
        (hfree hgo).2 (by rw [hwire, hpend]; rfl)⟩

/-- The writer may be closed, which changes no byte. -/
theorem Stream.Carries.closeOut (h : s.Carries todo) :
    ({ s with out := { s.out with closeAsap := true } } : Stream).Carries todo :=
  ⟨⟨h.wf.buf, h.wf.blocks, h.wf.bytes, h.wf.sent⟩, ⟨h.scheduled.client, fun _ hc => by cases hc⟩,
    h.qbPos, h.synced⟩

/-- The reader may be closed. -/
theorem Stream.Carries.closeInp (h : s.Carries todo) :
    ({ s with inp := { s.inp with closed := true } } : Stream).Carries todo :=
  ⟨h.wf, h.scheduled, h.qbPos, .inl rfl⟩

end Stream

/-! ## Both directions -/

/-- The server that connects, and the one that accepts. -/
inductive Side where
  | connector
  | acceptor
  deriving DecidableEq

def Side.other : Side → Side
  | .connector => .acceptor
  | .acceptor => .connector

@[simp] theorem Side.other_other (x : Side) : x.other.other = x := by cases x <;> rfl

/-- `shared.replhandshake`. -/
def replhandshake : Sds :=
  "*3\r\n$9\r\nREPLICATE\r\n$7\r\nreplica\r\n$9\r\nhandshake\r\n".toList

def handshakeArgv : List Sds := ["REPLICATE".toList, "replica".toList, "handshake".toList]

theorem replhandshake_eq : replhandshake = respCommand handshakeArgv := by decide

/-- The command marks its client as a replica. -/
def isHandshakeCommand (argv : List Sds) : Bool :=
  strCaseEq (argv.getD 0 []) "replicate" && isHandshake (argv.getD · [])

theorem isHandshakeCommand_handshake : isHandshakeCommand handshakeArgv = true := by decide

/-- A connection between two servers. `stream x` is what the client at `x` writes, `stream x.other`
what it reads. -/
structure Link where
  stream : Side → Stream
  /-- How often the client at `x` is in `server.replicas`. -/
  joined : Side → ℕ
  /-- What was written to the client at `x`. -/
  sent : Side → List (List Sds)
  /-- What the client at `x` executed. -/
  done : Side → List (List Sds)
  /-- The client at `x` was freed. -/
  freed : Side → Bool

def Link.setStream (l : Link) (x : Side) (s : Stream) : Link :=
  { l with stream := Function.update l.stream x s }

@[simp] theorem Link.setStream_joined (l : Link) (x : Side) (s : Stream) :
    (l.setStream x s).joined = l.joined := rfl

@[simp] theorem Link.setStream_sent (l : Link) (x : Side) (s : Stream) :
    (l.setStream x s).sent = l.sent := rfl

@[simp] theorem Link.setStream_done (l : Link) (x : Side) (s : Stream) :
    (l.setStream x s).done = l.done := rfl

@[simp] theorem Link.setStream_freed (l : Link) (x : Side) (s : Stream) :
    (l.setStream x s).freed = l.freed := rfl

/-- What the event loop does with the output of a client. -/
inductive IoEv where
  | beforeSleep (ws : List (ℤ × Bool)) (up installed : Bool)
  | writable (ws : List (ℤ × Bool)) (up : Bool)
  | protect
  | unprotect

def IoEv.toOut : IoEv → OutEv
  | .beforeSleep ws up installed => .beforeSleep ws up installed
  | .writable ws up => .writable ws up
  | .protect => .protect
  | .unprotect => .unprotect

/-- What happens at the server `x`: it broadcasts a message, its event loop writes, its client reads
or goes on with its buffer, the connection fails (`freeClientAsync`), or the client is freed
(`freeClient`). The commands that are executed reply `replies`. -/
inductive LinkEv where
  | broadcast (x : Side) (E : OutEnv) (argv : List Sds)
  | io (x : Side) (E : OutEnv) (e : IoEv)
  | read (x : Side) (E : OutEnv) (k : ℕ) (halt : ℕ → Bool) (replies : List Sds → List Sds)
  | resume (x : Side) (E : OutEnv) (halt : ℕ → Bool) (replies : List Sds → List Sds)
  | lose (x : Side)
  | free (x : Side)

def LinkEv.side : LinkEv → Side
  | .broadcast x .. | .io x .. | .read x .. | .resume x .. | .lose x | .free x => x

/-- `replicationBroadcast`, for the entries of `server.replicas` that are this client. -/
def Link.feed (E : OutEnv) (x : Side) (argv : List Sds) : ℕ → Link → Option Link
  | 0, l => some l
  | j + 1, l => ((l.stream x).write E (.message argv)).bind fun s =>
    Link.feed E x argv j
      { l.setStream x s with sent := Function.update l.sent x (l.sent x ++ [argv]) }

/-- The client at `x` executes a command. A command other than the handshake is a write of a CRDT,
which changes no flag of the client. -/
def Link.exec (E : OutEnv) (replies : List Sds → List Sds) (x : Side) (l : Link)
    (argv : List Sds) : Option Link :=
  let l := { l with done := Function.update l.done x (l.done x ++ [argv]) }
  if isHandshakeCommand argv then
    ((l.stream x).write E (.flags { (l.stream x).out.flags with replica := true })).map fun s =>
      { l.setStream x s with joined := Function.update l.joined x (l.joined x + 1) }
  else (replies argv).foldlM (fun l r => ((l.stream x).write E (.reply r)).map (l.setStream x)) l

/-- `CLIENT_CLOSE_ASAP` is one flag of the client at `x`. -/
def Link.sync (x : Side) (l : Link) : Link :=
  if (l.stream x).out.closeAsap || (l.stream x.other).inp.closed then
    let l := l.setStream x { l.stream x with out := { (l.stream x).out with closeAsap := true } }
    l.setStream x.other
      { l.stream x.other with inp := { (l.stream x.other).inp with closed := true } }
  else l

@[simp] theorem Link.sync_done (x : Side) (l : Link) : (l.sync x).done = l.done := by
  unfold Link.sync
  split <;> rfl

@[simp] theorem Link.sync_freed (x : Side) (l : Link) : (l.sync x).freed = l.freed := by
  unfold Link.sync
  split <;> rfl

/-- `freeClientAsync`. -/
def Link.lose (x : Side) (l : Link) : Link :=
  let s := l.stream x.other
  (l.setStream x.other { s with inp := { s.inp with closed := true } }).sync x

/-- An event at a server that has freed its client: no handler of the client is left. Nothing takes
it out of `server.replicas`, and a broadcast to it is a use after free (`none`). -/
def Link.stale (l : Link) : LinkEv → Option Link
  | .broadcast x _ _ => if l.joined x = 0 then some l else none
  | _ => some l

/-- An event at a server that has its client. -/
def Link.live (cfg : InCfg) (l : Link) : LinkEv → Option Link
  | .broadcast x E argv => (l.feed E x argv (l.joined x)).map (Link.sync x)
  | .io x E e => ((l.stream x).write E e.toOut).map fun s => (l.setStream x s).sync x
  | .read x E k halt replies => ((l.stream x.other).read cfg halt k).bind fun r =>
    (r.2.foldlM (Link.exec E replies x) (l.setStream x.other r.1)).map (Link.sync x)
  | .resume x E halt replies => ((l.stream x.other).resume cfg halt).bind fun r =>
    (r.2.foldlM (Link.exec E replies x) (l.setStream x.other r.1)).map (Link.sync x)
  | .lose x => some (l.lose x)
  | .free x =>
    -- a protected client is closed only
    some { l.lose x with
      freed := Function.update l.freed x (!(l.stream x).out.protect) }

def linkStep (cfg : InCfg) (l : Link) (e : LinkEv) : Option Link :=
  if l.freed e.side then l.stale e else l.live cfg e

def linkRun (cfg : InCfg) (l : Link) (es : List LinkEv) : Option Link := es.foldlM (linkStep cfg) l

/-- `replicationHandler`: the handshake is written, as to any client, before the client is
marked. -/
def linkStart (E : OutEnv) : Link where
  stream
    | .connector =>
      let out := addReplyProto E Out.new replhandshake
      ⟨{ out with flags := { out.flags with replica := true } }, [], In.new⟩
    | .acceptor => ⟨Out.new, [], In.new⟩
  joined
    | .connector => 1
    | .acceptor => 0
  sent
    | .connector => [handshakeArgv]
    | .acceptor => []
  done _ := []
  freed _ := false

/-- The messages that `x` broadcasts. -/
def LinkEv.broadcasts (x : Side) : LinkEv → List (List Sds)
  | .broadcast y _ argv => if y = x then [argv] else []
  | _ => []

def linkBroadcasts (x : Side) (es : List LinkEv) : List (List Sds) :=
  es.flatMap (LinkEv.broadcasts x)

/-- `e'` is no broadcast of the server that frees its client in `e`. -/
def LinkEv.Spares (e e' : LinkEv) : Prop := ∀ x, e = .free x → e'.broadcasts x = []

/-! ## What holds of a link -/

/-- The flags of a client that is in `server.replicas` so often. -/
def linkFlags (joined : ℕ) : OutFlags := { Out.new.flags with replica := decide (0 < joined) }

/-- How often a client is in `server.replicas` without a handshake that it executes. -/
def Side.base : Side → ℕ
  | .connector => 1
  | .acceptor => 0

/-- What holds of a link after the broadcasts `bs`, where the commands `run` were read and are to be
executed. -/
structure LinkInv (bs run : Side → List (List Sds)) (l : Link) : Prop where
  carries : ∀ x, ∃ todo, l.sent x = l.done x.other ++ run x.other ++ todo ∧
    (l.stream x).Carries todo
  connector : l.sent .connector = handshakeArgv :: bs .connector
  acceptor : ∃ early, bs .acceptor = early ++ l.sent .acceptor
  unjoined : l.joined .acceptor = 0 → l.sent .acceptor = []
  joined : ∀ x, l.joined x = x.base + (l.done x).countP isHandshakeCommand
  flags : ∀ x, (l.stream x).out.flags = linkFlags (l.joined x)

/-- The messages are within the limits, and none is a handshake. -/
def BroadcastsOk (cfg : InCfg) (bs : Side → List (List Sds)) : Prop :=
  ∀ x, ∀ a ∈ bs x, Sendable cfg a ∧ isHandshakeCommand a = false

theorem linkFlags_message (j : ℕ) : ((linkFlags j).message true).accepts = true := by
  simp [linkFlags, OutFlags.message, OutFlags.accepts, OutFlags.admits, Out.new]

theorem linkFlags_accepts {j : ℕ} (hj : 0 < j) : (linkFlags j).accepts = false := by
  simp [linkFlags, OutFlags.accepts, OutFlags.admits, Out.new, hj]

theorem linkFlags_next_message (j : ℕ) (a : List Sds) :
    (OutEv.message a).next (linkFlags j) = linkFlags j := rfl

theorem IoEv.adds_eq (e : IoEv) (f : OutFlags) : e.toOut.adds f = [] ∧ e.toOut.next f = f := by
  cases e <;> exact ⟨rfl, rfl⟩

section Link

variable {cfg : InCfg} {bs run : Side → List (List Sds)} {l : Link} {x : Side}

/-- The stream that `x` writes is replaced by one that carries the same and has the same flags. -/
theorem LinkInv.setStream (h : LinkInv bs run l) {s : Stream}
    (hs : ∀ todo, (l.stream x).Carries todo → s.Carries todo)
    (hf : s.out.flags = (l.stream x).out.flags) : LinkInv bs run (l.setStream x s) := by
  refine ⟨fun y => ?_, h.connector, h.acceptor, h.unjoined, h.joined, fun y => ?_⟩
  · obtain ⟨todo, hsent, hc⟩ := h.carries y
    refine ⟨todo, hsent, ?_⟩
    by_cases hy : y = x
    · subst hy
      simpa [Link.setStream] using hs todo hc
    · simpa [Link.setStream, hy] using hc
  · by_cases hy : y = x
    · subst hy
      simp only [Link.setStream, Function.update_self, hf, h.flags y]
    · simpa [Link.setStream, hy] using h.flags y

theorem LinkInv.sync (h : LinkInv bs run l) : LinkInv bs run (l.sync x) := by
  unfold Link.sync
  split
  · have h₁ : LinkInv bs run
        (l.setStream x { l.stream x with out := { (l.stream x).out with closeAsap := true } }) :=
      h.setStream (fun _ hc => hc.closeOut) rfl
    exact h₁.setStream (fun _ hc => hc.closeInp) rfl
  · exact h

/-- The client at `x` has joined before it executes a command other than the handshake. -/
theorem LinkInv.joined_pos (h : LinkInv bs run l) {a : List Sds} {rest : List (List Sds)}
    (hrun : run x = a :: rest) (ha : isHandshakeCommand a = false) : 0 < l.joined x := by
  rw [h.joined x]
  cases x with
  | connector => simp [Side.base]
  | acceptor =>
    obtain ⟨todo, hsent, -⟩ := h.carries .connector
    rw [h.connector, Side.other, hrun] at hsent
    cases hd : l.done .acceptor with
    | nil =>
      -- the first command is the handshake
      simp only [hd, List.nil_append, List.cons_append, List.cons.injEq] at hsent
      rw [← hsent.1, isHandshakeCommand_handshake] at ha
      cases ha
    | cons b ds =>
      simp only [hd, List.cons_append, List.cons.injEq] at hsent
      rw [← hsent.1]
      simp [Side.base, isHandshakeCommand_handshake]

/-- What an end executed was sent by the other one. -/
theorem LinkInv.done_prefix (h : LinkInv bs run l) (x : Side) : l.done x.other <+: l.sent x := by
  obtain ⟨todo, hsent, -⟩ := h.carries x
  rw [hsent, List.append_assoc]
  exact List.prefix_append _ _

theorem LinkInv.joined_connector (h : LinkInv bs run l) (hok : BroadcastsOk cfg bs) :
    l.joined .connector = 1 := by
  have hzero : (l.done .connector).countP isHandshakeCommand = 0 := by
    rw [List.countP_eq_zero]
    intro a ha
    obtain ⟨early, hearly⟩ := h.acceptor
    have hmem := (h.done_prefix .acceptor).subset ha
    have := (hok .acceptor a (hearly ▸ List.mem_append_right early hmem)).2
    simp [this]
  rw [h.joined, hzero]
  rfl

theorem LinkInv.joined_acceptor (h : LinkInv bs run l) (hok : BroadcastsOk cfg bs) :
    l.joined .acceptor ≤ 1 := by
  have hpre := h.done_prefix .connector
  rw [h.connector] at hpre
  have hle := hpre.sublist.countP_le (p := isHandshakeCommand)
  have hzero : (bs .connector).countP isHandshakeCommand = 0 := by
    rw [List.countP_eq_zero]
    intro a ha
    simp [(hok .connector a ha).2]
  rw [List.countP_cons, hzero] at hle
  rw [h.joined]
  simp only [Side.base, Side.other] at hle ⊢
  split at hle <;> omega

theorem LinkInv.sendable (h : LinkInv bs run l) (hok : BroadcastsOk cfg bs)
    (hhs : Sendable cfg handshakeArgv) (x : Side) : ∀ a ∈ l.sent x, Sendable cfg a := by
  intro a ha
  cases x with
  | connector =>
    rw [h.connector] at ha
    rcases List.mem_cons.mp ha with rfl | ha
    · exact hhs
    · exact (hok .connector a ha).1
  | acceptor =>
    obtain ⟨early, hearly⟩ := h.acceptor
    exact (hok .acceptor a (hearly ▸ List.mem_append_right early ha)).1

/-- One reply of a client that has joined is dropped. -/
theorem LinkInv.reply (h : LinkInv bs run l) (hj : 0 < l.joined x) (E : OutEnv) (r : Sds) :
    ∃ l', ((l.stream x).write E (.reply r)).map (l.setStream x) = some l' ∧
      LinkInv bs run l' ∧ l'.joined = l.joined ∧ l'.freed = l.freed ∧ l'.done = l.done := by
  obtain ⟨todo, -, hc⟩ := h.carries x
  obtain ⟨s, hw, -, hf, -, -⟩ := hc.write E (.reply r)
  refine ⟨l.setStream x s, by rw [hw]; rfl, h.setStream (fun todo hc => ?_) hf, rfl, rfl,
    rfl⟩
  obtain ⟨s', hw', -, -, hkeep, -⟩ := hc.write E (.reply r)
  obtain rfl : s = s' := by simpa [hw] using hw'
  exact hkeep (by simp [OutEv.adds, h.flags, linkFlags_accepts hj])

theorem LinkInv.replies (h : LinkInv bs run l) (hj : 0 < l.joined x) (E : OutEnv) (rs : List Sds) :
    ∃ l', rs.foldlM (fun l r => ((l.stream x).write E (.reply r)).map (l.setStream x)) l = some l' ∧
      LinkInv bs run l' ∧ l'.freed = l.freed ∧ l'.done = l.done := by
  induction rs generalizing l with
  | nil => exact ⟨l, rfl, h, rfl, rfl⟩
  | cons r rs ih =>
    obtain ⟨l₁, hstep, h₁, hj₁, hf₁, hd₁⟩ := h.reply hj E r
    obtain ⟨l', hrun, h', hf', hd'⟩ := ih h₁ (by rwa [hj₁])
    exact ⟨l', by rw [List.foldlM_cons, hstep]; exact hrun, h', hf'.trans hf₁, hd'.trans hd₁⟩

/-- One command is executed. -/
theorem LinkInv.exec (h : LinkInv bs run l) {a : List Sds} {rest : List (List Sds)}
    (hrun : run x = a :: rest) (E : OutEnv) (replies : List Sds → List Sds) :
    ∃ l', l.exec E replies x a = some l' ∧ LinkInv bs (Function.update run x rest) l' ∧
      l'.freed = l.freed ∧ l'.done = Function.update l.done x (l.done x ++ [a]) := by
  have hcarries : ∀ y, ∃ todo, l.sent y = Function.update l.done x (l.done x ++ [a]) y.other ++
      Function.update run x rest y.other ++ todo ∧ (l.stream y).Carries todo := by
    intro y
    obtain ⟨todo, hsent, hc⟩ := h.carries y
    refine ⟨todo, ?_, hc⟩
    by_cases hy : y.other = x
    · subst hy
      simp [hsent, hrun]
    · simp [hy, hsent]
  unfold Link.exec
  simp only
  cases ha : isHandshakeCommand a with
  | true =>
    obtain ⟨todo, -, hc⟩ := h.carries x
    obtain ⟨s, hw, -, hf, -, -⟩ :=
      hc.write E (.flags { (l.stream x).out.flags with replica := true })
    simp only [if_true, hw, Option.map_some]
    refine ⟨_, rfl, ⟨fun y => ?_, h.connector, h.acceptor, fun h0 => h.unjoined ?_, fun y => ?_,
      fun y => ?_⟩, rfl, rfl⟩
    · obtain ⟨todo', hsent, hc'⟩ := hcarries y
      refine ⟨todo', hsent, ?_⟩
      by_cases hy : y = x
      · subst hy
        obtain ⟨s', hw', -, -, hkeep, -⟩ :=
          hc'.write E (.flags { (l.stream y).out.flags with replica := true })
        obtain rfl : s = s' := by simpa [hw] using hw'
        simpa [Link.setStream] using hkeep rfl
      · simpa [Link.setStream, hy] using hc'
    · by_cases hx : x = .acceptor
      · subst hx
        simp at h0
      · simpa [Function.update_of_ne (Ne.symm hx)] using h0
    · by_cases hy : y = x
      · subst hy
        simp [h.joined y, ha]
        omega
      · simp [hy, h.joined y]
    · by_cases hy : y = x
      · subst hy
        simp [Link.setStream, hf, OutEv.next, h.flags y, linkFlags]
      · simpa [Link.setStream, hy] using h.flags y
  | false =>
    have hj := h.joined_pos hrun ha
    have hinv : LinkInv bs (Function.update run x rest)
        { l with done := Function.update l.done x (l.done x ++ [a]) } := by
      refine ⟨hcarries, h.connector, h.acceptor, h.unjoined, fun y => ?_, h.flags⟩
      by_cases hy : y = x
      · subst hy
        simp [h.joined y, ha]
      · simp [hy, h.joined y]
    exact hinv.replies hj E (replies a)

/-- The commands that were read are executed. -/
theorem LinkInv.execAll (cmds : List (List Sds))
    (h : LinkInv bs (Function.update (fun _ => []) x cmds) l) (E : OutEnv)
    (replies : List Sds → List Sds) :
    ∃ l', cmds.foldlM (Link.exec E replies x) l = some l' ∧ LinkInv bs (fun _ => []) l' ∧
      l'.freed = l.freed ∧ l'.done x = l.done x ++ cmds := by
  induction cmds generalizing l with
  | nil =>
    refine ⟨l, rfl, ?_, rfl, by simp⟩
    rwa [Function.update_eq_self_iff.mpr rfl] at h
  | cons a cmds ih =>
    obtain ⟨l₁, hstep, h₁, hf₁, hd₁⟩ := h.exec (x := x) (Function.update_self ..) E replies
    rw [Function.update_idem] at h₁
    obtain ⟨l', hrun, h', hf', hd'⟩ := ih h₁
    exact ⟨l', by rw [List.foldlM_cons, hstep]; exact hrun, h', hf'.trans hf₁, by simp [hd', hd₁]⟩

/-- What `x` read of the stream from the other end is executed. -/
theorem LinkInv.input (h : LinkInv bs (fun _ => []) l) {s : Stream}
    {cmds todo todo' : List (List Sds)} (hout : s.out = (l.stream x.other).out)
    (hsent : l.sent x.other = l.done x ++ todo) (htodo : todo = cmds ++ todo')
    (hc : s.Carries todo') (E : OutEnv) (replies : List Sds → List Sds) :
    ∃ l', (cmds.foldlM (Link.exec E replies x) (l.setStream x.other s)).map (Link.sync x) =
        some l' ∧ LinkInv bs (fun _ => []) l' ∧ l'.freed = l.freed ∧
      l'.done x = l.done x ++ cmds := by
  have hinv : LinkInv bs (Function.update (fun _ => []) x cmds) (l.setStream x.other s) := by
    refine ⟨fun y => ?_, h.connector, h.acceptor, h.unjoined, h.joined, fun y => ?_⟩
    · by_cases hy : y = x.other
      · subst hy
        exact ⟨todo', by simp [hsent, htodo], by simpa [Link.setStream] using hc⟩
      · obtain ⟨t, ht, hct⟩ := h.carries y
        have hyx : y.other ≠ x := fun he => hy (by rw [← he, Side.other_other])
        exact ⟨t, by simpa [hyx] using ht, by simpa [Link.setStream, hy] using hct⟩
    · by_cases hy : y = x.other
      · subst hy
        simp [Link.setStream, hout, h.flags]
      · simpa [Link.setStream, hy] using h.flags y
  obtain ⟨l', hrun, h', hf', hd'⟩ := hinv.execAll cmds E replies
  exact ⟨l'.sync x, by rw [hrun]; rfl, h'.sync, by simp [hf'], by simp [hd']⟩

/-- A message is written to a client once if it has joined, and not at all if it has not. -/
theorem LinkInv.broadcast (h : LinkInv bs (fun _ => []) l) (hok : BroadcastsOk cfg bs) (x : Side)
    (argv : List Sds) (E : OutEnv) :
    ∃ l', l.feed E x argv (l.joined x) = some l' ∧ l'.freed = l.freed ∧
      LinkInv (fun y => bs y ++ if x = y then [argv] else []) (fun _ => []) l' := by
  have hcases : l.joined x = 1 ∨ x = .acceptor ∧ l.joined x = 0 := by
    cases x with
    | connector => exact .inl (h.joined_connector hok)
    | acceptor =>
      rcases Nat.le_one_iff_eq_zero_or_eq_one.mp (h.joined_acceptor hok) with h0 | h1
      · exact .inr ⟨rfl, h0⟩
      · exact .inl h1
  rcases hcases with hj | ⟨rfl, hj⟩
  · obtain ⟨todo, hsent, hc⟩ := h.carries x
    have hadds : (OutEv.message argv).adds (l.stream x).out.flags = respCommand argv := by
      simp [OutEv.adds, h.flags, linkFlags_message]
    obtain ⟨s, hw, -, hf, -, hsend⟩ := hc.write E (.message argv)
    refine ⟨{ l.setStream x s with sent := Function.update l.sent x (l.sent x ++ [argv]) },
      by simp [hj, Link.feed, hw], rfl, ⟨fun y => ?_, ?_, ?_, ?_, h.joined, fun y => ?_⟩⟩
    · by_cases hy : y = x
      · subst hy
        exact ⟨todo ++ [argv], by simp [hsent], by simpa [Link.setStream] using hsend argv hadds⟩
      · obtain ⟨t, ht, hct⟩ := h.carries y
        exact ⟨t, by simpa [hy] using ht, by simpa [Link.setStream, hy] using hct⟩
    · cases x with
      | connector => simp [h.connector]
      | acceptor => simp [h.connector]
    · obtain ⟨early, hearly⟩ := h.acceptor
      refine ⟨early, ?_⟩
      cases x with
      | connector => simp [hearly]
      | acceptor => simp [hearly]
    · intro h0
      cases x with
      | connector => exact h.unjoined h0
      | acceptor => exact absurd (hj.symm.trans h0) (by decide)
    · by_cases hy : y = x
      · subst hy
        simp [Link.setStream, hf, h.flags, linkFlags_next_message]
      · simpa [Link.setStream, hy] using h.flags y
  · obtain ⟨early, hearly⟩ := h.acceptor
    have hnil := h.unjoined hj
    refine ⟨l, by rw [hj]; rfl, rfl, ⟨h.carries, by simp [h.connector], ⟨early ++ [argv], ?_⟩,
      h.unjoined, h.joined, h.flags⟩⟩
    simp [hearly, hnil]

theorem LinkInv.lose (h : LinkInv bs run l) : LinkInv bs run (l.lose x) :=
  (h.setStream (fun _ hc => hc.closeInp) rfl).sync

theorem LinkEv.broadcasts_eq_nil {e : LinkEv} (h : e.broadcasts e.side = []) (y : Side) :
    e.broadcasts y = [] := by
  cases e with
  | broadcast x E argv => simp [LinkEv.broadcasts, LinkEv.side] at h
  | _ => rfl

/-- An event at a server that has freed its client does nothing, unless it is a broadcast. -/
theorem Link.stale_eq {e : LinkEv} (h : e.broadcasts e.side = []) : l.stale e = some l := by
  cases e with
  | broadcast x E argv => simp [LinkEv.broadcasts, LinkEv.side] at h
  | _ => rfl

/-- **One event of a link**, at a server that has its client. -/
theorem Link.live_spec (hhs : Sendable cfg handshakeArgv) (h : LinkInv bs (fun _ => []) l)
    (e : LinkEv) (hok : BroadcastsOk cfg fun y => bs y ++ e.broadcasts y) :
    ∃ l', l.live cfg e = some l' ∧ (∀ y, l'.freed y = true → l.freed y = true ∨ e = .free y) ∧
      LinkInv (fun y => bs y ++ e.broadcasts y) (fun _ => []) l' := by
  have hok' : BroadcastsOk cfg bs := fun y a ha => hok y a (List.mem_append_left _ ha)
  have hv : ∀ y todo, l.sent y = l.done y.other ++ [] ++ todo → ∀ a ∈ todo, Sendable cfg a :=
    fun y todo hsent a ha => h.sendable hok' hhs y a (hsent ▸ List.mem_append_right _ ha)
  cases e with
  | broadcast x E argv =>
    obtain ⟨l', hfeed, hf, h'⟩ := h.broadcast hok' x argv E
    exact ⟨l'.sync x, by simp [Link.live, hfeed], fun y hy => .inl (by simpa [hf] using hy),
      h'.sync⟩
  | io x E e =>
    simp only [LinkEv.broadcasts, List.append_nil]
    obtain ⟨todo, -, hc⟩ := h.carries x
    obtain ⟨s, hw, -, hf, -, -⟩ := hc.write E e.toOut
    have hinv : LinkInv bs (fun _ => []) (l.setStream x s) := by
      refine h.setStream (fun t ht => ?_) (hf.trans (e.adds_eq _).2)
      obtain ⟨s', hw', -, -, hkeep, -⟩ := ht.write E e.toOut
      obtain rfl : s = s' := by simpa [hw] using hw'
      exact hkeep (e.adds_eq _).1
    exact ⟨(l.setStream x s).sync x, by simp only [Link.live, hw, Option.map_some],
      fun y hy => .inl (by simpa using hy), hinv.sync⟩
  | read x E k halt replies =>
    simp only [LinkEv.broadcasts, List.append_nil]
    obtain ⟨todo, hsent, hc⟩ := h.carries x.other
    obtain ⟨s, cmds, todo', hread, hout, htodo, hc'⟩ := hc.read (hv _ todo hsent) halt k
    rw [Side.other_other, List.append_nil] at hsent
    obtain ⟨l', hrun, h', hf, -⟩ := h.input hout hsent htodo hc' E replies
    exact ⟨l', by simp only [Link.live, hread, Option.bind_some]; exact hrun,
      fun y hy => .inl (by rwa [hf] at hy), h'⟩
  | resume x E halt replies =>
    simp only [LinkEv.broadcasts, List.append_nil]
    obtain ⟨todo, hsent, hc⟩ := h.carries x.other
    obtain ⟨s, cmds, todo', hread, hout, htodo, hc', -⟩ := hc.resume (hv _ todo hsent) halt
    rw [Side.other_other, List.append_nil] at hsent
    obtain ⟨l', hrun, h', hf, -⟩ := h.input hout hsent htodo hc' E replies
    exact ⟨l', by simp only [Link.live, hread, Option.bind_some]; exact hrun,
      fun y hy => .inl (by rwa [hf] at hy), h'⟩
  | lose x =>
    simp only [LinkEv.broadcasts, List.append_nil]
    exact ⟨l.lose x, rfl, fun y hy => .inl (by simpa [Link.lose] using hy), h.lose⟩
  | free x =>
    simp only [LinkEv.broadcasts, List.append_nil]
    have hl : LinkInv bs (fun _ => []) (l.lose x) := h.lose
    refine ⟨_, rfl, fun y hy => ?_,
      ⟨hl.carries, hl.connector, hl.acceptor, hl.unjoined, hl.joined, hl.flags⟩⟩
    by_cases hyx : y = x
    · exact .inr (by rw [hyx])
    · exact .inl (by simpa [hyx] using hy)

/-- **One event of a link.** A server that has freed its client does not broadcast. -/
theorem linkStep_spec (hhs : Sendable cfg handshakeArgv) (h : LinkInv bs (fun _ => []) l)
    (e : LinkEv) (hok : BroadcastsOk cfg fun y => bs y ++ e.broadcasts y)
    (hfreed : ∀ y, l.freed y = true → e.broadcasts y = []) :
    ∃ l', linkStep cfg l e = some l' ∧
      (∀ y, l'.freed y = true → l.freed y = true ∨ e = .free y) ∧
      LinkInv (fun y => bs y ++ e.broadcasts y) (fun _ => []) l' := by
  unfold linkStep
  split
  · rename_i hf
    have hnone := hfreed e.side hf
    refine ⟨l, l.stale_eq hnone, fun y hy => .inl hy, ?_⟩
    simpa [LinkEv.broadcasts_eq_nil hnone] using h
  · exact Link.live_spec hhs h e hok

/-- The run lemma of `linkStep_spec`. -/
theorem linkRun_spec (hhs : Sendable cfg handshakeArgv) (es : List LinkEv)
    (h : LinkInv bs (fun _ => []) l) (hok : BroadcastsOk cfg fun y => bs y ++ linkBroadcasts y es)
    (hspares : es.Pairwise LinkEv.Spares)
    (hfreed : ∀ y, l.freed y = true → linkBroadcasts y es = []) :
    ∃ l', linkRun cfg l es = some l' ∧
      LinkInv (fun y => bs y ++ linkBroadcasts y es) (fun _ => []) l' := by
  induction es generalizing bs l with
  | nil => exact ⟨l, rfl, by simpa [linkBroadcasts] using h⟩
  | cons e es ih =>
    have hassoc : (fun y => bs y ++ linkBroadcasts y (e :: es)) =
        fun y => (bs y ++ e.broadcasts y) ++ linkBroadcasts y es := by
      funext y
      simp [linkBroadcasts]
    have hcons : ∀ y, linkBroadcasts y (e :: es) = e.broadcasts y ++ linkBroadcasts y es :=
      fun y => by simp [linkBroadcasts]
    rw [hassoc] at hok ⊢
    obtain ⟨he, hes⟩ := List.pairwise_cons.mp hspares
    obtain ⟨l₁, hstep, hf₁, h₁⟩ :=
      linkStep_spec hhs h e (fun y a ha => hok y a (List.mem_append_left _ ha))
        fun y hy => (List.append_eq_nil_iff.mp (hcons y ▸ hfreed y hy)).1
    -- a client that is freed now was freed before, or by this event
    have hfreed₁ : ∀ y, l₁.freed y = true → linkBroadcasts y es = [] := by
      intro y hy
      rcases hf₁ y hy with hy | hfree
      · exact (List.append_eq_nil_iff.mp (hcons y ▸ hfreed y hy)).2
      · exact List.flatMap_eq_nil_iff.mpr fun e' he' => he e' he' y hfree
    obtain ⟨l', hrun, h'⟩ := ih h₁ hok hes hfreed₁
    refine ⟨l', ?_, h'⟩
    unfold linkRun at hrun ⊢
    rw [List.foldlM_cons, hstep]
    exact hrun

/-- The first state: the handshake is in the output of the client that connected. -/
theorem LinkInv.start (E : OutEnv) : LinkInv (fun _ => []) (fun _ => []) (linkStart E) := by
  have hadd := addReplyProto_spec E .new .new replhandshake
  have hacc : Out.new.flags.accepts = true := rfl
  rw [hacc, if_pos rfl] at hadd
  refine ⟨fun x => ?_, rfl, ⟨[], rfl⟩, fun _ => rfl, fun x => by cases x <;> rfl, fun x => ?_⟩
  · cases x with
    | connector =>
      refine ⟨[handshakeArgv], rfl, ⟨hadd.wf.setFlags _, hadd.scheduled.setFlags _, rfl, .inr ?_⟩⟩
      refine .of_fresh .new ?_
      have hp : (addReplyProto E Out.new replhandshake).pending = respCommand handshakeArgv := by
        rw [hadd.pending, ← replhandshake_eq]
        rfl
      simpa [linkStart, In.rest, In.new, Out.pending] using hp
    | acceptor =>
      exact ⟨[], rfl, ⟨.new, .new, rfl, .inr (.idle .new rfl)⟩⟩
  · cases x with
    | connector =>
      simp only [linkStart, linkFlags]
      rw [hadd.flags]
      rfl
    | acceptor => rfl

end Link

/-- **Links deliver in order**: for every sequence of broadcasts, writes, reads, pauses, lost
connections and freed clients at the two servers, where no server broadcasts after it has freed its
client and no message closes or blocks the client that executes it, no assertion of either server
fails and

* the server that accepted executes a first part of the handshake and what the other one broadcast;
* the server that connected executes a first part of what the other one broadcast after it had
  executed the handshake; what it broadcast before that (`early`) is not sent;
* where nothing is pending and nothing is on the way to a client that is not closed or freed, one
  pass over its buffer that nothing stops executes the rest.

Nothing is lost in between, nothing is executed twice or changed, and replies to what came over the
link are not written to it. -/
theorem link_delivers (cfg : InCfg) (E : OutEnv) (es : List LinkEv)
    (hhs : Sendable cfg handshakeArgv)
    (hok : ∀ x, ∀ a ∈ linkBroadcasts x es, Sendable cfg a ∧ isHandshakeCommand a = false)
    (hspares : es.Pairwise LinkEv.Spares) :
    ∃ l, linkRun cfg (linkStart E) es = some l ∧
      l.done .acceptor <+: handshakeArgv :: linkBroadcasts .connector es ∧
      l.done .connector <+: l.sent .acceptor ∧
      (∃ early, linkBroadcasts .acceptor es = early ++ l.sent .acceptor) ∧
      ∀ x E replies, (l.stream x.other).wire = [] → (l.stream x.other).out.pending = [] →
        (l.stream x.other).inp.closed = false → l.freed x = false →
        ∃ l', linkStep cfg l (.resume x E (fun _ => false) replies) = some l' ∧
          l'.done x = l.sent x.other := by
  obtain ⟨l, hrun, h⟩ := linkRun_spec hhs es (.start E) (by simpa [BroadcastsOk] using hok)
    hspares (by simp [linkStart])
  simp only [List.nil_append] at h
  refine ⟨l, hrun, ?_, h.done_prefix .acceptor, h.acceptor, fun x E replies hw hp ho hx => ?_⟩
  · rw [← h.connector]
    exact h.done_prefix .connector
  · obtain ⟨todo, hsent, hc⟩ := h.carries x.other
    have hv : ∀ a ∈ todo, Sendable cfg a := fun a ha =>
      h.sendable hok hhs x.other a (hsent ▸ List.mem_append_right _ ha)
    obtain ⟨s, cmds, todo', hread, hout, htodo, hc', hall⟩ := hc.resume hv fun _ => false
    rw [Side.other_other, List.append_nil] at hsent
    obtain ⟨l', hstep, -, -, hd⟩ := h.input hout hsent htodo hc' E replies
    refine ⟨l', ?_, ?_⟩
    · simp only [linkStep, LinkEv.side, hx, Bool.false_eq_true, if_false, Link.live, hread,
        Option.bind_some]
      exact hstep
    · rw [hd, hsent, htodo, hall ho (fun _ => rfl) hw hp, List.append_nil]

/-- An allocator that gives what it is asked for, no limits, and no time. -/
def outEnvPlain : OutEnv := ⟨id, fun _ => le_rfl, ⟨0, 0, 0⟩, 0⟩

/-- The hypotheses hold of a link over which the server that accepted broadcasts once before and
once after it has executed the handshake, which is read in two pieces. Then the server that
connected loses the connection and frees its client, and the other one broadcasts again. -/
theorem link_delivers_handshake :
    let add : List Sds := ["rwfzadd".toList, ['q'], ['a'], ['5'], "0,0|0".toList]
    let rem : List Sds := ["rwfzrem".toList, ['q'], ['a'], "0,1|1".toList]
    let es : List LinkEv := [.broadcast .acceptor outEnvPlain rem,
      .broadcast .connector outEnvPlain add,
      .io .connector outEnvPlain (.beforeSleep [(200, true)] true true),
      .read .acceptor outEnvPlain 30 (fun _ => false) (fun _ => []),
      .read .acceptor outEnvPlain 300 (fun _ => false) (fun _ => [['+']]),
      .broadcast .acceptor outEnvPlain add,
      .lose .connector, .free .connector, .broadcast .acceptor outEnvPlain rem]
    ∃ l, linkRun inCfgDefault (linkStart outEnvPlain) es = some l ∧
      l.done .acceptor <+: handshakeArgv :: linkBroadcasts .connector es ∧
      l.done .connector <+: l.sent .acceptor ∧
      (∃ early, linkBroadcasts .acceptor es = early ++ l.sent .acceptor) ∧
      ∀ x E replies, (l.stream x.other).wire = [] → (l.stream x.other).out.pending = [] →
        (l.stream x.other).inp.closed = false → l.freed x = false →
        ∃ l', linkStep inCfgDefault l (.resume x E (fun _ => false) replies) = some l' ∧
          l'.done x = l.sent x.other := by
  intro add rem es
  have hadd : Sendable inCfgDefault add ∧ isHandshakeCommand add = false :=
    ⟨⟨by decide, by decide, by decide, by decide⟩, by decide⟩
  have hrem : Sendable inCfgDefault rem ∧ isHandshakeCommand rem = false :=
    ⟨⟨by decide, by decide, by decide, by decide⟩, by decide⟩
  refine link_delivers inCfgDefault outEnvPlain es ⟨by decide, by decide, by decide, by decide⟩
    (fun x a ha => ?_) (by simp [es, LinkEv.Spares, LinkEv.broadcasts])
  have hmem : a = add ∨ a = rem := by
    cases x with
    | connector => simpa [es, linkBroadcasts, LinkEv.broadcasts] using Or.inl ha
    | acceptor =>
      have h : a = rem ∨ a = add ∨ a = rem := by
        simpa [es, linkBroadcasts, LinkEv.broadcasts] using ha
      tauto
  rcases hmem with rfl | rfl
  · exact hadd
  · exact hrem

-- a broadcast to a client that was freed
example : (linkRun inCfgDefault (linkStart outEnvPlain)
    [.free .connector, .broadcast .connector outEnvPlain []]).isNone := by decide

end CrdtRedis

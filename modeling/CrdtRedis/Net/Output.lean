import CrdtRedis.Crdt
import CrdtRedis.Text

/-!
# The output of a client (`networking.c`)

What is written to a client first goes to a static buffer, and from the first piece that does not
fit on to a list of blocks (`addReplyToBuffer`, `addReplyProtoToList`). `writeToClient` hands the
buffer, then the blocks, to the socket, which may take less than it is given; `sentlen` is the
part of the first of them that was taken. A client with something to write is put into a queue that
is served before the server sleeps; if the socket did not take everything, a handler is installed
that is called when it takes more.

A client that stands for a replica gets no replies, only messages: `replicationBroadcast` sets the
flag `CLIENT_REPLICA_MESSAGE` while it writes one (`respCommand`).

* `Out.pending`: the bytes that were not taken yet, over the buffer and the blocks.
* `addReplyProto_spec`, `writeToClient_spec`: what one step does to them.
* `output_fifo`: in every run the bytes taken and the pending ones are the replies and messages, in
  order; the assertion on `reply_bytes` holds, and what is pending is scheduled to be written.
-/

namespace CrdtRedis

/-- The size of the static buffer, and the least size of a block. -/
def PROTO_REPLY_CHUNK_BYTES : ℕ := 16 * 1024

def NET_MAX_WRITES_PER_EVENT : ℕ := 1024 * 64

/-- `clientReplyBlock`; `used` is the length of `buf`. -/
structure ReplyBlock where
  size : ℕ
  buf : Sds

/-- The flags of a client that its output depends on: `CLIENT_REPLY_OFF` or `CLIENT_REPLY_SKIP`,
`CLIENT_MASTER`, `CLIENT_MASTER_FORCE_REPLY`, `CLIENT_REPLICA`, `CLIENT_REPLICA_MESSAGE`,
`CLIENT_CLOSE_AFTER_REPLY`. -/
structure OutFlags where
  replyOff : Bool
  master : Bool
  masterForceReply : Bool
  replica : Bool
  replicaMessage : Bool
  closeAfterReply : Bool

/-- The output part of a client. The used part of the static buffer is `buf`. -/
structure Out where
  buf : Sds
  sentlen : ℕ
  reply : List ReplyBlock
  replyBytes : ℕ
  flags : OutFlags
  /-- `CLIENT_LUA` or `CLIENT_MODULE`. -/
  luaOrModule : Bool
  connected : Bool
  /-- The state of the replication that Redis has of its own lets the client write. -/
  online : Bool
  /-- `CLIENT_PENDING_WRITE`, and the client is in `clients_pending_write`. -/
  pendingWrite : Bool
  writeHandler : Bool
  /-- `CLIENT_PROTECTED`. -/
  protect : Bool
  /-- `CLIENT_CLOSE_ASAP`, which `freeClientAsync` sets. -/
  closeAsap : Bool
  /-- `obuf_soft_limit_reached_time`; 0: not reached. -/
  softSince : ℕ

/-- `client_obuf_limits`, of the class of the client; 0 is no limit. -/
structure ObufLimits where
  hardLimitBytes : ℕ
  softLimitBytes : ℕ
  softLimitSeconds : ℕ

/-- What the output depends on at one event: what the allocator gives for a request
(`zmalloc_usable`, without the header of the block), the limits and the time. -/
structure OutEnv where
  usable : ℕ → ℕ
  le_usable : ∀ k, k ≤ usable k
  limits : ObufLimits
  unixtime : ℕ

/-- `clientHasPendingReplies`. -/
def Out.hasPending (c : Out) : Bool := !c.buf.isEmpty || !c.reply.isEmpty

def clientInstallWriteHandler (c : Out) : Out :=
  if !c.pendingWrite && c.online then { c with pendingWrite := true } else c

/-- `prepareClientToWrite`; `none` is `C_ERR`. -/
def prepareClientToWrite (c : Out) : Option Out :=
  if c.luaOrModule then some c
  else if c.flags.replyOff then none
  else if c.flags.master && !c.flags.masterForceReply then none
  else if c.flags.replica && !c.flags.replicaMessage then none
  else if !c.connected then none
  else some (if c.hasPending then c else clientInstallWriteHandler c)

/-- `_addReplyToBuffer`; `none` is `C_ERR`. -/
def addReplyToBuffer (c : Out) (s : Sds) : Option Out :=
  if c.flags.closeAfterReply then some c
  else if 0 < c.reply.length then none
  else if PROTO_REPLY_CHUNK_BYTES - c.buf.length < s.length then none
  else some { c with buf := c.buf ++ s }

/-- The part of `s` that fits into the last block is put there. -/
def fillTail (s : Sds) : List ReplyBlock → List ReplyBlock × Sds
  | [] => ([], s)
  | [b] =>
    let avail := b.size - b.buf.length
    ([{ b with buf := b.buf ++ s.take avail }], s.drop avail)
  | b :: bs => (b :: (fillTail s bs).1, (fillTail s bs).2)

/-- `sizeof(listNode) + sizeof(clientReplyBlock)`. -/
def listItemSize : ℕ := 24 + 16

def getClientOutputBufferMemoryUsage (c : Out) : ℕ := c.replyBytes + listItemSize * c.reply.length

/-- `checkClientOutputBufferLimits`: the time from which on the soft limit is exceeded, and whether
the client is over a limit. -/
def checkClientOutputBufferLimits (E : OutEnv) (c : Out) : ℕ × Bool :=
  let usedMem := getClientOutputBufferMemoryUsage c
  let hard := E.limits.hardLimitBytes ≠ 0 && E.limits.hardLimitBytes ≤ usedMem
  if E.limits.softLimitBytes ≠ 0 && E.limits.softLimitBytes ≤ usedMem then
    if c.softSince = 0 then (E.unixtime, hard)
    else (c.softSince, hard || E.limits.softLimitSeconds < E.unixtime - c.softSince)
  else (0, hard)

/-- `asyncCloseClientOnOutputBufferLimitReached`, without the assertion that the size fits into a
`size_t`. -/
def asyncCloseClientOnOutputBufferLimitReached (E : OutEnv) (c : Out) : Out :=
  if !c.connected then c
  else if c.replyBytes = 0 || c.closeAsap then c
  else
    let r := checkClientOutputBufferLimits E c
    { c with softSince := r.1, closeAsap := r.2 }

/-- The list part of `_addReplyProtoToList`: what does not fit into the last block gets a new
one. -/
def appendToList (E : OutEnv) (c : Out) (s : Sds) : Out :=
  let r := fillTail s c.reply
  if r.2.isEmpty then { c with reply := r.1 }
  else
    let size := E.usable (max PROTO_REPLY_CHUNK_BYTES r.2.length)
    { c with reply := r.1 ++ [⟨size, r.2⟩], replyBytes := c.replyBytes + size }

/-- `_addReplyProtoToList`. -/
def addReplyProtoToList (E : OutEnv) (c : Out) (s : Sds) : Out :=
  if c.flags.closeAfterReply then c
  else asyncCloseClientOnOutputBufferLimitReached E (appendToList E c s)

/-- `addReplyProto`, and `addReply` and `addReplySds` of a string. -/
def addReplyProto (E : OutEnv) (c : Out) (s : Sds) : Out :=
  match prepareClientToWrite c with
  | none => c
  | some c =>
    match addReplyToBuffer c s with
    | some c => c
    | none => addReplyProtoToList E c s

def crlf : Sds := ['\r', '\n']

def OBJ_SHARED_BULKHDR_LEN : ℕ := 32

/-- The shared objects `mbulkhdr` and `bulkhdr`. -/
def sharedHdr (pre : Char) (j : ℕ) : Sds := pre :: (numText j ++ crlf)

/-- `addReplyLongLongWithPrefix`, of a number that is not negative. -/
def addReplyLongLongWithPrefix (E : OutEnv) (c : Out) (ll : ℕ) (pre : Char) : Out :=
  if pre = '*' && ll < OBJ_SHARED_BULKHDR_LEN then addReplyProto E c (sharedHdr '*' ll)
  else if pre = '$' && ll < OBJ_SHARED_BULKHDR_LEN then addReplyProto E c (sharedHdr '$' ll)
  else addReplyProto E c ([pre] ++ numText ll ++ ['\r'] ++ ['\n'])

/-- `addReplyArrayLen`. -/
def addReplyArrayLen (E : OutEnv) (c : Out) (length : ℕ) : Out :=
  if length < OBJ_SHARED_BULKHDR_LEN then addReplyProto E c (sharedHdr '*' length)
  else addReplyLongLongWithPrefix E c length '*'

/-- `addReplyBulkLen`. -/
def addReplyBulkLen (E : OutEnv) (c : Out) (obj : Sds) : Out :=
  if obj.length < OBJ_SHARED_BULKHDR_LEN then addReplyProto E c (sharedHdr '$' obj.length)
  else addReplyLongLongWithPrefix E c obj.length '$'

/-- `addReplyBulk`. -/
def addReplyBulk (E : OutEnv) (c : Out) (obj : Sds) : Out :=
  addReplyProto E (addReplyProto E (addReplyBulkLen E c obj) obj) crlf

/-- The flag `CLIENT_REPLICA_MESSAGE` is set or cleared. -/
def OutFlags.message (f : OutFlags) (on : Bool) : OutFlags := { f with replicaMessage := on }

/-- `replicationBroadcast`, for one replica. -/
def feedReplica (E : OutEnv) (c : Out) (argv : List Sds) : Out :=
  let c := { c with flags := c.flags.message true }
  let c := argv.foldl (addReplyBulk E) (addReplyArrayLen E c argv.length)
  { c with flags := c.flags.message false }

/-! ## Writing -/

/-- The blocks at the head of the list that hold nothing are deleted. -/
def skipEmpty (bytes : ℕ) : List ReplyBlock → ℕ × List ReplyBlock
  | [] => (bytes, [])
  | b :: bs => if b.buf.isEmpty then skipEmpty (bytes - b.size) bs else (bytes, b :: bs)

/-- What is given to `connWrite`: the rest of the buffer, or of the first block. -/
def Out.segment (c : Out) : Sds :=
  if !c.buf.isEmpty then c.buf.drop c.sentlen
  else (c.reply.head?.elim [] ReplyBlock.buf).drop c.sentlen

/-- The socket took `k` bytes of the segment. `none`: the assertion on `reply_bytes` fails. -/
def Out.advance (c : Out) (k : ℕ) : Option Out :=
  let sentlen := c.sentlen + k
  if !c.buf.isEmpty then
    if sentlen = c.buf.length then some { c with buf := [], sentlen := 0 }
    else some { c with sentlen := sentlen }
  else match c.reply with
    | [] => some c
    | b :: bs =>
      if sentlen = b.buf.length then
        let bytes := c.replyBytes - b.size
        if bs.isEmpty && bytes != 0 then none
        else some { c with reply := bs, replyBytes := bytes, sentlen := 0 }
      else some { c with sentlen := sentlen }

/-- The loop of `writeToClient`: what is left, the bytes that the socket took, and whether its last
answer was -1. An entry of `ws` is an answer of `connWrite`, with whether the server is over
`maxmemory` then; after the last one the socket takes nothing more. -/
def writeLoop : List (ℤ × Bool) → Out → ℕ → Option (Out × Sds × Bool)
  | [], c, _ =>
    let p := if c.buf.isEmpty then skipEmpty c.replyBytes c.reply else (c.replyBytes, c.reply)
    let c := { c with replyBytes := p.1, reply := p.2 }
    some (c, [], c.hasPending)
  | (w, overMem) :: ws, c, totwritten =>
    let p := if c.buf.isEmpty then skipEmpty c.replyBytes c.reply else (c.replyBytes, c.reply)
    let c := { c with replyBytes := p.1, reply := p.2 }
    if !c.hasPending then some (c, [], false)
    else if w ≤ 0 then some (c, [], w == -1)
    else
      let s := c.segment.take w.toNat
      match c.advance s.length with
      | none => none
      | some c =>
        let totwritten := totwritten + s.length
        if NET_MAX_WRITES_PER_EVENT < totwritten && !overMem then some (c, s, false)
        else (writeLoop ws c totwritten).map fun r => (r.1, s ++ r.2.1, r.2.2)

/-- `writeToClient`; `up`: the connection is in order after the last write. The result is the
client, the bytes that the socket took, and whether the client is still valid. -/
def writeToClient (c : Out) (handlerInstalled : Bool) (ws : List (ℤ × Bool)) (up : Bool) :
    Option (Out × Sds × Bool) :=
  match writeLoop ws c 0 with
  | none => none
  | some (c, s, failed) =>
    if failed && !up then some ({ c with closeAsap := true }, s, false)
    else if !c.hasPending then
      let c := { c with sentlen := 0 }
      let c := if handlerInstalled then { c with writeHandler := false } else c
      if c.flags.closeAfterReply then some ({ c with closeAsap := true }, s, false)
      else some (c, s, true)
    else some (c, s, true)

/-- `handleClientsWithPendingWrites`, for one client; `installed`: the handler could be
installed. -/
def handlePendingWrite (c : Out) (ws : List (ℤ × Bool)) (up installed : Bool) :
    Option (Out × Sds) :=
  if !c.pendingWrite then some (c, [])
  else
    let c := { c with pendingWrite := false }
    if c.protect then some (c, [])
    else match writeToClient c false ws up with
      | none => none
      | some (c, s, false) => some (c, s)
      | some (c, s, true) =>
        if c.hasPending then
          if installed then some ({ c with writeHandler := true }, s)
          else some ({ c with closeAsap := true }, s)
        else some (c, s)

/-- `sendReplyToClient`, which is called if the handler is installed. -/
def sendReplyToClient (c : Out) (ws : List (ℤ × Bool)) (up : Bool) : Option (Out × Sds) :=
  if c.writeHandler then (writeToClient c true ws up).map fun r => (r.1, r.2.1) else some (c, [])

/-- `protectClient`: the handlers are removed. -/
def protectClient (c : Out) : Out := { c with protect := true, writeHandler := false }

def unprotectClient (c : Out) : Out :=
  if c.protect then
    let c := { c with protect := false }
    if c.hasPending then clientInstallWriteHandler c else c
  else c

/-! ## The bytes that are pending -/

/-- The bytes in the blocks. -/
def blockBytes (bs : List ReplyBlock) : Sds := bs.flatMap ReplyBlock.buf

@[simp] theorem blockBytes_nil : blockBytes [] = [] := rfl

@[simp] theorem blockBytes_cons (b : ReplyBlock) (bs : List ReplyBlock) :
    blockBytes (b :: bs) = b.buf ++ blockBytes bs := rfl

@[simp] theorem blockBytes_append (bs bs' : List ReplyBlock) :
    blockBytes (bs ++ bs') = blockBytes bs ++ blockBytes bs' := List.flatMap_append

/-- The bytes that the socket has not taken. -/
def Out.pending (c : Out) : Sds := (c.buf ++ blockBytes c.reply).drop c.sentlen

/-- What holds of the buffers of a client. -/
structure Out.Wf (c : Out) : Prop where
  buf : c.buf.length ≤ PROTO_REPLY_CHUNK_BYTES
  blocks : ∀ b ∈ c.reply, b.buf ≠ [] ∧ b.buf.length ≤ b.size
  bytes : c.replyBytes = (c.reply.map ReplyBlock.size).sum
  /-- Only the first piece was sent in part. -/
  sent : c.sentlen = 0 ∨ 0 < c.segment.length

/-- The client has a connection, and what is pending will be written: the client is in the queue or
has a handler, or one of the two is set when it is not protected any more. -/
structure Out.Scheduled (c : Out) : Prop where
  client : c.luaOrModule = false ∧ c.connected = true ∧ c.online = true
  sched : c.hasPending = true → c.closeAsap = false →
    c.pendingWrite = true ∨ c.writeHandler = true ∨ c.protect = true

theorem Out.hasPending_eq_false {c : Out} : c.hasPending = false ↔ c.buf = [] ∧ c.reply = [] := by
  simp [Out.hasPending]

/-- A client has something pending exactly if bytes were not taken. -/
theorem Out.Wf.pending_eq_nil {c : Out} (h : c.Wf) : c.pending = [] ↔ c.hasPending = false := by
  rw [Out.hasPending_eq_false]
  constructor
  · intro hp
    have hlen : (c.buf ++ blockBytes c.reply).length ≤ c.sentlen := List.drop_eq_nil_iff.mp hp
    rw [List.length_append] at hlen
    have hsent := h.sent
    unfold Out.segment at hsent
    cases hb : c.buf with
    | cons x xs =>
      simp only [hb, List.isEmpty_cons, Bool.not_false, if_true, List.length_drop] at hsent hlen
      simp only [List.length_cons] at hsent hlen
      omega
    | nil =>
      cases hr : c.reply with
      | nil => exact ⟨rfl, rfl⟩
      | cons b bs =>
        have hne := List.length_pos_iff.mpr (h.blocks b (by simp [hr])).1
        simp only [hb, hr, List.isEmpty_nil, Bool.not_true, Bool.false_eq_true, if_false,
          List.head?_cons, Option.elim_some, List.length_drop, List.length_nil,
          blockBytes_cons, List.length_append] at hsent hlen
        omega
  · rintro ⟨hb, hr⟩
    simp [Out.pending, hb, hr]

/-! ## Adding -/

/-- The client gets replies: those of a replica are messages. -/
def OutFlags.admits (f : OutFlags) : Bool :=
  !f.replyOff && !(f.master && !f.masterForceReply) && !(f.replica && !f.replicaMessage)

/-- What is written to the client is added to its output. -/
def OutFlags.accepts (f : OutFlags) : Bool := f.admits && !f.closeAfterReply

/-- The bytes `s` were added to the output. -/
structure Out.Adds (c c' : Out) (s : Sds) : Prop where
  wf : c'.Wf
  scheduled : c'.Scheduled
  flags : c'.flags = c.flags
  pending : c'.pending = c.pending ++ s

theorem Out.Adds.refl {c : Out} (hw : c.Wf) (hs : c.Scheduled) : c.Adds c [] :=
  ⟨hw, hs, rfl, by simp⟩

theorem Out.Adds.trans {c c₁ c₂ : Out} {s t : Sds} (h₁ : c.Adds c₁ s) (h₂ : c₁.Adds c₂ t) :
    c.Adds c₂ (s ++ t) :=
  ⟨h₂.wf, h₂.scheduled, h₂.flags.trans h₁.flags, by
    rw [h₂.pending, h₁.pending, List.append_assoc]⟩

section Tail

variable (s : Sds)

theorem fillTail_bytes (bs : List ReplyBlock) :
    blockBytes (fillTail s bs).1 ++ (fillTail s bs).2 = blockBytes bs ++ s := by
  fun_induction fillTail s bs with
  | case1 => rfl
  | case2 b avail => simp [avail]
  | case3 b bs _ ih => simp [ih]

theorem fillTail_size (bs : List ReplyBlock) :
    ((fillTail s bs).1.map ReplyBlock.size).sum = (bs.map ReplyBlock.size).sum := by
  fun_induction fillTail s bs with
  | case1 => rfl
  | case2 b avail => rfl
  | case3 b bs _ ih => simp [ih]

theorem fillTail_blocks {bs : List ReplyBlock}
    (h : ∀ b ∈ bs, b.buf ≠ [] ∧ b.buf.length ≤ b.size) :
    ∀ b ∈ (fillTail s bs).1, b.buf ≠ [] ∧ b.buf.length ≤ b.size := by
  fun_induction fillTail s bs with
  | case1 => exact h
  | case2 b avail =>
    obtain ⟨hne, hle⟩ := h b (by simp)
    intro b' hb'
    obtain rfl := List.mem_singleton.mp hb'
    refine ⟨by simp [hne], ?_⟩
    simp only [List.length_append, List.length_take, avail]
    omega
  | case3 b bs _ ih =>
    intro b' hb'
    rcases List.mem_cons.mp hb' with rfl | hb'
    · exact h _ (by simp)
    · exact ih (fun b hb => h b (List.mem_cons_of_mem _ hb)) b' hb'

/-- The first block keeps what it has. -/
theorem fillTail_head (b : ReplyBlock) (bs : List ReplyBlock) :
    ∃ t bs', (fillTail s (b :: bs)).1 = { b with buf := b.buf ++ t } :: bs' := by
  cases bs with
  | nil => exact ⟨s.take (b.size - b.buf.length), [], rfl⟩
  | cons b' bs => exact ⟨[], (fillTail s (b' :: bs)).1, by simp [fillTail]⟩

end Tail

/-- A client with nothing pending is scheduled before something is added. -/
def Out.prepared (c : Out) : Out := if c.hasPending then c else { c with pendingWrite := true }

theorem prepareClientToWrite_eq {c : Out} (hs : c.Scheduled) :
    prepareClientToWrite c = if c.flags.admits then some c.prepared else none := by
  obtain ⟨hlua, hconn, hon⟩ := hs.client
  have hinst : clientInstallWriteHandler c = { c with pendingWrite := true } := by
    unfold clientInstallWriteHandler
    cases hp : c.pendingWrite with
    | false => simp [hon]
    | true => rw [← hp]; simp
  simp only [prepareClientToWrite, hlua, hconn, hinst, OutFlags.admits, Out.prepared]
  cases c.flags.replyOff
  · cases c.flags.master && !c.flags.masterForceReply
    · cases c.flags.replica && !c.flags.replicaMessage <;> rfl
    · rfl
  · rfl

section Prepared

variable {c : Out}

@[simp] theorem Out.prepared_buf : c.prepared.buf = c.buf := by unfold prepared; split <;> rfl
@[simp] theorem Out.prepared_reply : c.prepared.reply = c.reply := by unfold prepared; split <;> rfl
@[simp] theorem Out.prepared_flags : c.prepared.flags = c.flags := by unfold prepared; split <;> rfl

@[simp] theorem Out.prepared_sentlen : c.prepared.sentlen = c.sentlen := by
  unfold prepared; split <;> rfl

@[simp] theorem Out.prepared_replyBytes : c.prepared.replyBytes = c.replyBytes := by
  unfold prepared; split <;> rfl

theorem Out.Wf.prepared (h : c.Wf) : c.prepared.Wf :=
  ⟨by simpa using h.buf, by simpa using h.blocks, by simpa using h.bytes,
    by simpa [Out.segment] using h.sent⟩

/-- After `prepareClientToWrite` the client is scheduled, whatever is added. -/
theorem Out.Scheduled.prepared (h : c.Scheduled) :
    (c.prepared.luaOrModule = false ∧ c.prepared.connected = true ∧ c.prepared.online = true) ∧
      (c.prepared.closeAsap = false → c.prepared.pendingWrite = true ∨
        c.prepared.writeHandler = true ∨ c.prepared.protect = true) := by
  unfold Out.prepared
  split
  · rename_i hp
    exact ⟨h.client, h.sched hp⟩
  · exact ⟨h.client, fun _ => .inl rfl⟩

end Prepared

/-- The bytes fit into the static buffer, or none of them is put there. -/
theorem addReplyToBuffer_spec {c c' : Out} {s : Sds} (hw : c.Wf)
    (hc : c.flags.closeAfterReply = false) (h : addReplyToBuffer c s = some c') :
    c'.Wf ∧ c' = { c with buf := c.buf ++ s } ∧ c.reply = [] := by
  simp only [addReplyToBuffer, hc, Bool.false_eq_true, if_false] at h
  split at h
  · cases h
  · rename_i hr
    split at h
    · cases h
    · rename_i hlen
      obtain rfl := Option.some.inj h
      have hnil : c.reply = [] := List.length_eq_zero_iff.mp (by omega)
      have hbuf := hw.buf
      refine ⟨⟨?_, hw.blocks, hw.bytes, ?_⟩, rfl, hnil⟩
      · simp only [List.length_append]
        omega
      · rcases hw.sent with h0 | hpos
        · exact .inl h0
        · right
          cases hb : c.buf with
          | nil => simp [Out.segment, hb, hnil] at hpos
          | cons x xs =>
            simp only [Out.segment, hb, List.isEmpty_cons, Bool.not_false, if_true,
              List.length_drop, List.cons_append, List.length_cons, List.length_append] at hpos ⊢
            omega

/-- The last block is filled up, the rest gets a block of its own. -/
theorem appendToList_spec (E : OutEnv) {c : Out} (s : Sds) (hw : c.Wf) :
    (appendToList E c s).Wf ∧ blockBytes (appendToList E c s).reply = blockBytes c.reply ++ s ∧
      ∃ bs k, appendToList E c s = { c with reply := bs, replyBytes := k } := by
  have hbytes := fillTail_bytes s c.reply
  have hsize := fillTail_size s c.reply
  have hblocks := fillTail_blocks s hw.blocks
  -- A block that was sent in part stays the first one.
  have hsent : ∀ bs', c.sentlen = 0 ∨
      0 < ({ c with reply := (fillTail s c.reply).1 ++ bs' } : Out).segment.length := by
    intro bs'
    refine hw.sent.imp_right fun hpos => ?_
    unfold Out.segment at hpos ⊢
    simp only at hpos ⊢
    split
    · rename_i hb
      rwa [if_pos hb] at hpos
    · rename_i hb
      rw [if_neg hb] at hpos
      cases hr : c.reply with
      | nil => simp [hr] at hpos
      | cons b bs =>
        obtain ⟨t, bs₁, ht⟩ := fillTail_head s b bs
        rw [ht]
        simp only [hr, List.head?_cons, Option.elim_some, List.length_drop, List.cons_append,
          List.length_append] at hpos ⊢
        omega
  unfold appendToList
  simp only
  split
  · rename_i hnil
    rw [List.isEmpty_iff] at hnil
    rw [hnil, List.append_nil] at hbytes
    have h₀ := hsent []
    rw [List.append_nil] at h₀
    exact ⟨⟨hw.buf, hblocks, hw.bytes.trans hsize.symm, h₀⟩, hbytes, _, _, rfl⟩
  · rename_i hne
    rw [List.isEmpty_iff] at hne
    refine ⟨⟨hw.buf, ?_, ?_, hsent _⟩, ?_, _, _, rfl⟩
    · intro b hb
      rcases List.mem_append.mp hb with hb | hb
      · exact hblocks b hb
      · obtain rfl := List.mem_singleton.mp hb
        exact ⟨hne, (le_max_right _ _).trans (E.le_usable _)⟩
    · simp only [List.map_append, List.sum_append, hsize, hw.bytes, List.map_cons, List.map_nil,
        List.sum_cons, List.sum_nil, add_zero]
    · simp only [blockBytes_append, blockBytes_cons, blockBytes_nil, List.append_nil]
      exact hbytes

/-- A limit may close the client; a closed client stays closed. -/
theorem asyncClose_eq (E : OutEnv) (c : Out) :
    ∃ t b, asyncCloseClientOnOutputBufferLimitReached E c =
        { c with softSince := t, closeAsap := b } ∧
      (b = false → c.closeAsap = false) := by
  unfold asyncCloseClientOnOutputBufferLimitReached
  split
  · exact ⟨_, _, rfl, id⟩
  · split
    · exact ⟨_, _, rfl, id⟩
    · rename_i hopen
      refine ⟨_, _, rfl, fun _ => ?_⟩
      cases hc : c.closeAsap with
      | false => rfl
      | true => simp [hc] at hopen

theorem addReplyProtoToList_spec (E : OutEnv) {c : Out} (s : Sds) (hw : c.Wf)
    (hc : c.flags.closeAfterReply = false) :
    (addReplyProtoToList E c s).Wf ∧
      blockBytes (addReplyProtoToList E c s).reply = blockBytes c.reply ++ s ∧
      ∃ bs k t b, addReplyProtoToList E c s =
          { c with reply := bs, replyBytes := k, softSince := t, closeAsap := b } ∧
        (b = false → c.closeAsap = false) := by
  obtain ⟨hwf, hbytes, bs, k, he⟩ := appendToList_spec E s hw
  obtain ⟨t, b, ha, hb⟩ := asyncClose_eq E (appendToList E c s)
  simp only [addReplyProtoToList, hc, Bool.false_eq_true, if_false]
  rw [ha]
  refine ⟨⟨hwf.buf, hwf.blocks, hwf.bytes, hwf.sent⟩, hbytes, bs, k, t, b, by rw [he], ?_⟩
  rw [he] at hb
  exact hb

theorem Out.Wf.sentlen_le {c : Out} (h : c.Wf) :
    c.sentlen ≤ (c.buf ++ blockBytes c.reply).length := by
  rcases h.sent with h0 | hpos
  · omega
  · rw [List.length_append]
    unfold Out.segment at hpos
    split at hpos
    · rw [List.length_drop] at hpos
      omega
    · cases hr : c.reply with
      | nil => simp [hr] at hpos
      | cons b bs =>
        simp only [hr, List.head?_cons, Option.elim_some, List.length_drop] at hpos
        simp only [blockBytes_cons, List.length_append]
        omega

/-- **One piece of output**: it is added to what is pending, if the client takes it. -/
theorem addReplyProto_spec (E : OutEnv) {c : Out} (hw : c.Wf) (hs : c.Scheduled) (s : Sds) :
    c.Adds (addReplyProto E c s) (if c.flags.accepts then s else []) := by
  unfold addReplyProto
  rw [prepareClientToWrite_eq hs]
  cases hadm : c.flags.admits with
  | false =>
    simp only [Bool.false_eq_true, if_false, OutFlags.accepts, hadm, Bool.false_and]
    exact .refl hw hs
  | true =>
    have hw' := hw.prepared
    obtain ⟨hcl, hsched⟩ := hs.prepared
    have hpend : c.prepared.pending = c.pending := by simp [Out.pending]
    simp only [if_true, OutFlags.accepts, hadm, Bool.true_and]
    cases hclose : c.flags.closeAfterReply with
    | true =>
      have hbuf : addReplyToBuffer c.prepared s = some c.prepared := by
        simp [addReplyToBuffer, hclose]
      simp only [hbuf, Bool.not_true, Bool.false_eq_true, if_false]
      exact ⟨hw', ⟨hcl, fun _ => hsched⟩, by simp, by simp [hpend]⟩
    | false =>
      have hc' : c.prepared.flags.closeAfterReply = false := by simpa using hclose
      simp only [Bool.not_false, if_true]
      cases hb : addReplyToBuffer c.prepared s with
      | some c' =>
        obtain ⟨hwf, rfl, hnil⟩ := addReplyToBuffer_spec hw' hc' hb
        refine ⟨hwf, ⟨hcl, fun _ => hsched⟩, by simp, ?_⟩
        have hle := hw'.sentlen_le
        rw [← hpend]
        simp only [Out.pending, hnil, blockBytes_nil, List.append_nil] at hle ⊢
        rw [List.drop_append_of_le_length hle]
      | none =>
        obtain ⟨hwf, hbytes, bs, k, t, b, he, hclosed⟩ := addReplyProtoToList_spec E s hw' hc'
        refine ⟨hwf, ?_, by rw [he]; simp, ?_⟩
        · rw [he]
          exact ⟨hcl, fun _ h => hsched (hclosed h)⟩
        · have hle := hw'.sentlen_le
          rw [← hpend]
          simp only [Out.pending, hbytes]
          rw [he]
          simp only
          rw [← List.append_assoc, List.drop_append_of_le_length hle]

/-! ## Messages -/

/-- An argument as a bulk string. -/
def respBulk (a : Sds) : Sds := sharedHdr '$' a.length ++ a ++ crlf

/-- A command in the protocol. -/
def respCommand (argv : List Sds) : Sds := sharedHdr '*' argv.length ++ argv.flatMap respBulk

theorem addReplyLongLongWithPrefix_eq (E : OutEnv) (c : Out) (k : ℕ) (pre : Char) :
    addReplyLongLongWithPrefix E c k pre = addReplyProto E c (sharedHdr pre k) := by
  unfold addReplyLongLongWithPrefix
  split
  · rename_i h
    simp only [Bool.and_eq_true, decide_eq_true_eq] at h
    rw [h.1]
  · split
    · rename_i h
      simp only [Bool.and_eq_true, decide_eq_true_eq] at h
      rw [h.1]
    · simp [sharedHdr, crlf]

theorem addReplyArrayLen_eq (E : OutEnv) (c : Out) (k : ℕ) :
    addReplyArrayLen E c k = addReplyProto E c (sharedHdr '*' k) := by
  unfold addReplyArrayLen
  split
  · rfl
  · exact addReplyLongLongWithPrefix_eq E c k '*'

theorem addReplyBulkLen_eq (E : OutEnv) (c : Out) (a : Sds) :
    addReplyBulkLen E c a = addReplyProto E c (sharedHdr '$' a.length) := by
  unfold addReplyBulkLen
  split
  · rfl
  · exact addReplyLongLongWithPrefix_eq E c a.length '$'

theorem addReplyBulk_spec (E : OutEnv) {c : Out} (hw : c.Wf) (hs : c.Scheduled) (a : Sds) :
    c.Adds (addReplyBulk E c a) (if c.flags.accepts then respBulk a else []) := by
  unfold addReplyBulk
  rw [addReplyBulkLen_eq]
  have h₁ := addReplyProto_spec E hw hs (sharedHdr '$' a.length)
  have h₂ := addReplyProto_spec E h₁.wf h₁.scheduled a
  have h₃ := addReplyProto_spec E h₂.wf h₂.scheduled crlf
  have h := (h₁.trans h₂).trans h₃
  rw [h₂.flags, h₁.flags] at h
  cases hacc : c.flags.accepts with
  | false => simpa [hacc] using h
  | true => simpa [hacc, respBulk] using h

theorem addReplyBulks_spec (E : OutEnv) {c : Out} (hw : c.Wf) (hs : c.Scheduled)
    (argv : List Sds) :
    c.Adds (argv.foldl (addReplyBulk E) c)
      (if c.flags.accepts then argv.flatMap respBulk else []) := by
  induction argv generalizing c with
  | nil => simpa using Out.Adds.refl hw hs
  | cons a argv ih =>
    have h₁ := addReplyBulk_spec E hw hs a
    have h := h₁.trans (ih h₁.wf h₁.scheduled)
    rw [h₁.flags] at h
    cases hacc : c.flags.accepts with
    | false => simpa [hacc] using h
    | true => simpa [hacc] using h

section Flags

variable {c : Out} (f : OutFlags)

theorem Out.Wf.setFlags (h : c.Wf) : ({ c with flags := f } : Out).Wf :=
  ⟨h.buf, h.blocks, h.bytes, h.sent⟩

theorem Out.Scheduled.setFlags (h : c.Scheduled) : ({ c with flags := f } : Out).Scheduled :=
  ⟨h.client, h.sched⟩

end Flags

/-- **A message to a replica**: one command of the protocol is added. -/
theorem feedReplica_spec (E : OutEnv) {c : Out} (hw : c.Wf) (hs : c.Scheduled)
    (argv : List Sds) :
    (feedReplica E c argv).Wf ∧ (feedReplica E c argv).Scheduled ∧
      (feedReplica E c argv).flags = c.flags.message false ∧
      (feedReplica E c argv).pending = c.pending ++
        if (c.flags.message true).accepts then respCommand argv else [] := by
  have h₁ := addReplyProto_spec E (hw.setFlags (c.flags.message true))
    (hs.setFlags (c.flags.message true)) (sharedHdr '*' argv.length)
  have h₂ := h₁.trans (addReplyBulks_spec E h₁.wf h₁.scheduled argv)
  rw [h₁.flags, ← addReplyArrayLen_eq] at h₂
  refine ⟨h₂.wf.setFlags _, h₂.scheduled.setFlags _, ?_, ?_⟩
  · exact (congrArg (OutFlags.message · false) h₂.flags).trans rfl
  · refine h₂.pending.trans (congrArg (c.pending ++ ·) ?_)
    dsimp only
    split
    · rfl
    · rfl

/-! ## Taking -/

/-- No block is empty. -/
theorem skipEmpty_eq {k : ℕ} {bs : List ReplyBlock} (h : ∀ b ∈ bs, b.buf ≠ []) :
    skipEmpty k bs = (k, bs) := by
  cases bs with
  | nil => rfl
  | cons b bs => simp [skipEmpty, h b (by simp)]

/-- The first piece is not empty, and the rest follows it. -/
theorem Out.Wf.segment_spec {c : Out} (h : c.Wf) (hp : c.hasPending = true) :
    0 < c.segment.length ∧ ∃ rest, c.pending = c.segment ++ rest := by
  have hpos : 0 < c.segment.length := by
    rcases h.sent with h0 | hpos
    · cases hb : c.buf with
      | cons x xs => simp [Out.segment, hb, h0]
      | nil =>
        cases hr : c.reply with
        | nil => simp [Out.hasPending, hb, hr] at hp
        | cons b bs =>
          have := List.length_pos_iff.mpr (h.blocks b (by simp [hr])).1
          simpa [Out.segment, hb, hr, h0] using this
    · exact hpos
  refine ⟨hpos, ?_⟩
  unfold Out.pending
  unfold Out.segment at hpos ⊢
  cases hb : c.buf with
  | cons x xs =>
    simp only [hb, List.isEmpty_cons, Bool.not_false, if_true, List.length_drop] at hpos ⊢
    exact ⟨blockBytes c.reply, List.drop_append_of_le_length (by omega)⟩
  | nil =>
    cases hr : c.reply with
    | nil => simp [Out.hasPending, hb, hr] at hp
    | cons b bs =>
      simp only [hb, hr, List.isEmpty_nil, Bool.not_true, Bool.false_eq_true, if_false,
        List.head?_cons, Option.elim_some, List.length_drop, List.nil_append,
        blockBytes_cons] at hpos ⊢
      exact ⟨blockBytes bs, List.drop_append_of_le_length (by omega)⟩

/-- Only the buffers changed. -/
def Out.SameClient (c c' : Out) : Prop :=
  ∃ b n bs k, c' = { c with buf := b, sentlen := n, reply := bs, replyBytes := k }

theorem Out.SameClient.trans {c c₁ c₂ : Out} (h₁ : c.SameClient c₁) (h₂ : c₁.SameClient c₂) :
    c.SameClient c₂ := by
  obtain ⟨b, n, bs, k, rfl⟩ := h₁
  obtain ⟨b', n', bs', k', rfl⟩ := h₂
  exact ⟨b', n', bs', k', rfl⟩

/-- The bytes taken and those left are the pending ones. -/
structure Out.Takes (c c' : Out) (s : Sds) : Prop where
  wf : c'.Wf
  same : c.SameClient c'
  pending : s ++ c'.pending = c.pending

theorem Out.Takes.refl {c : Out} (hw : c.Wf) : c.Takes c [] :=
  ⟨hw, ⟨_, _, _, _, rfl⟩, rfl⟩

theorem Out.Takes.trans {c c₁ c₂ : Out} {s t : Sds} (h₁ : c.Takes c₁ s) (h₂ : c₁.Takes c₂ t) :
    c.Takes c₂ (s ++ t) :=
  ⟨h₂.wf, h₁.same.trans h₂.same, by rw [List.append_assoc, h₂.pending, h₁.pending]⟩

/-- A part of the first piece is taken; the assertion on `reply_bytes` holds. -/
theorem Out.Wf.advance_spec {c : Out} (h : c.Wf) {k : ℕ} (hk : 0 < k)
    (hle : k ≤ c.segment.length) :
    ∃ c', c.advance k = some c' ∧ c.Takes c' (c.segment.take k) := by
  unfold Out.segment at hle
  unfold Out.advance Out.segment
  cases hb : c.buf with
  | cons x xs =>
    simp only [hb, List.isEmpty_cons, Bool.not_false, if_true, List.length_drop] at hle ⊢
    have hpend : c.pending = (x :: xs).drop c.sentlen ++ blockBytes c.reply := by
      rw [Out.pending, hb, List.drop_append_of_le_length (by omega)]
    split
    · rename_i hend
      refine ⟨_, rfl, ⟨by simp, h.blocks, h.bytes, .inl rfl⟩, ⟨_, _, _, _, rfl⟩, ?_⟩
      rw [hpend, List.take_of_length_le (by rw [List.length_drop]; omega)]
      simp [Out.pending]
    · rename_i hend
      refine ⟨_, rfl, ⟨hb ▸ h.buf, h.blocks, h.bytes, .inr ?_⟩, ⟨_, _, _, _, rfl⟩, ?_⟩
      · simp only [Out.segment, List.isEmpty_cons, Bool.not_false, if_true, List.length_drop]
        omega
      · simp only [Out.pending, hb]
        rw [List.drop_append_of_le_length (by omega), List.drop_append_of_le_length (by omega),
          ← List.append_assoc, ← List.drop_drop, List.take_append_drop]
  | nil =>
    cases hr : c.reply with
    | nil => simp [hb, hr] at hle; omega
    | cons b bs =>
      have hblock := h.blocks b (by simp [hr])
      have hbytes := h.bytes
      simp only [hr, List.map_cons, List.sum_cons] at hbytes
      simp only [hb, hr, List.isEmpty_nil, Bool.not_true, Bool.false_eq_true, if_false,
        List.head?_cons, Option.elim_some, List.length_drop] at hle ⊢
      have hpend : c.pending = b.buf.drop c.sentlen ++ blockBytes bs := by
        rw [Out.pending, hb, hr, List.nil_append, blockBytes_cons,
          List.drop_append_of_le_length (by omega)]
      have hrest : ∀ b' ∈ bs, b'.buf ≠ [] ∧ b'.buf.length ≤ b'.size := fun b' hb' =>
        h.blocks b' (by simp [hr, hb'])
      split
      · rename_i hend
        -- The sizes of the blocks that are left are all that is left of `reply_bytes`.
        have hleft : c.replyBytes - b.size = (bs.map ReplyBlock.size).sum := by omega
        rw [if_neg (by
          simp only [hleft, Bool.and_eq_true, List.isEmpty_iff, bne_iff_ne, not_and, not_not]
          rintro rfl
          rfl)]
        refine ⟨_, rfl, ⟨by simp, hrest, hleft, .inl rfl⟩, ⟨_, _, _, _, rfl⟩, ?_⟩
        rw [hpend, List.take_of_length_le (by rw [List.length_drop]; omega)]
        simp [Out.pending]
      · rename_i hend
        refine ⟨_, rfl, ⟨by simp, hr ▸ h.blocks, by rw [h.bytes, hr], .inr ?_⟩,
          ⟨_, _, _, _, rfl⟩, ?_⟩
        · simp only [Out.segment, List.isEmpty_nil, Bool.not_true, Bool.false_eq_true, if_false,
            List.head?_cons, Option.elim_some, List.length_drop]
          omega
        · simp only [Out.pending, hb, hr, List.nil_append, blockBytes_cons]
          rw [List.drop_append_of_le_length (by omega), List.drop_append_of_le_length (by omega),
            ← List.append_assoc, ← List.drop_drop, List.take_append_drop]

/-- The loop takes a prefix of what is pending. -/
theorem writeLoop_spec (ws : List (ℤ × Bool)) {c : Out} (hw : c.Wf) (tot : ℕ) :
    ∃ c' s failed, writeLoop ws c tot = some (c', s, failed) ∧ c.Takes c' s := by
  have hskip : (if c.buf.isEmpty then skipEmpty c.replyBytes c.reply
      else (c.replyBytes, c.reply)) = (c.replyBytes, c.reply) := by
    rw [skipEmpty_eq fun b hb => (hw.blocks b hb).1, ite_self]
  induction ws generalizing c tot with
  | nil => exact ⟨c, [], c.hasPending, by simp only [writeLoop, hskip], .refl hw⟩
  | cons w ws ih =>
    obtain ⟨w, overMem⟩ := w
    simp only [writeLoop, hskip]
    cases hp : c.hasPending with
    | false => exact ⟨c, [], false, rfl, .refl hw⟩
    | true =>
      simp only [Bool.not_true, Bool.false_eq_true, if_false]
      split
      · exact ⟨c, [], w == -1, rfl, .refl hw⟩
      · rename_i hpos
        obtain ⟨hseg, -⟩ := hw.segment_spec hp
        have hlen : (c.segment.take w.toNat).length = min w.toNat c.segment.length :=
          List.length_take
        obtain ⟨c₁, hadv, htake⟩ := hw.advance_spec (k := min w.toNat c.segment.length)
          (by omega) (min_le_right _ _)
        rw [hlen, hadv]
        have hs : c.segment.take (min w.toNat c.segment.length) = c.segment.take w.toNat := by
          rw [List.take_eq_take_min (i := w.toNat)]
        rw [hs] at htake
        simp only
        split
        · exact ⟨c₁, _, false, rfl, htake⟩
        · obtain ⟨c₂, t, failed, hloop, htake'⟩ := ih htake.wf
            (tot + min w.toNat c.segment.length)
            (by rw [skipEmpty_eq fun b hb => (htake.wf.blocks b hb).1, ite_self])
          exact ⟨c₂, c.segment.take w.toNat ++ t, failed, by rw [hloop]; rfl,
            htake.trans htake'⟩

/-- `writeToClient` takes a prefix of what is pending. It removes the handler only if nothing is
left, and the client that it frees is closed. -/
theorem writeToClient_spec {c : Out} (hw : c.Wf) (handlerInstalled : Bool) (ws : List (ℤ × Bool))
    (up : Bool) :
    ∃ c' s valid, writeToClient c handlerInstalled ws up = some (c', s, valid) ∧ c'.Wf ∧
      s ++ c'.pending = c.pending ∧ c'.flags = c.flags ∧
      (c'.luaOrModule = c.luaOrModule ∧ c'.connected = c.connected ∧ c'.online = c.online) ∧
      c'.pendingWrite = c.pendingWrite ∧ c'.protect = c.protect ∧
      (valid = false → c'.closeAsap = true) ∧
      (c'.hasPending = true → c'.closeAsap = false →
        c'.writeHandler = c.writeHandler ∧ c.closeAsap = false) := by
  obtain ⟨c₁, s, failed, hloop, hwf, ⟨b, n, bs, k, rfl⟩, hpend⟩ := writeLoop_spec ws hw 0
  unfold writeToClient
  rw [hloop]
  simp only
  split
  · exact ⟨_, s, false, rfl, ⟨hwf.buf, hwf.blocks, hwf.bytes, hwf.sent⟩, hpend, rfl,
      ⟨rfl, rfl, rfl⟩,
      rfl, rfl, fun _ => rfl, nofun⟩
  · cases hp : Out.hasPending { c with buf := b, sentlen := n, reply := bs, replyBytes := k } with
    | true =>
      simp only [Bool.not_true, Bool.false_eq_true, if_false]
      exact ⟨_, s, true, rfl, hwf, hpend, rfl, ⟨rfl, rfl, rfl⟩, rfl, rfl, nofun,
        fun _ h => ⟨rfl, h⟩⟩
    | false =>
      -- Nothing is left: neither bytes nor a position in them.
      obtain ⟨rfl, rfl⟩ : b = [] ∧ bs = [] := Out.hasPending_eq_false.mp hp
      have hs : s = c.pending := by simpa [Out.pending] using hpend
      have hk : k = 0 := hwf.bytes
      simp only [Bool.not_false, if_true]
      cases handlerInstalled
      all_goals
        simp only [Bool.false_eq_true, if_false, if_true]
        split
        · exact ⟨_, s, false, rfl, ⟨by simp, by simp, hk, .inl rfl⟩, by simp [Out.pending, hs], rfl,
            ⟨rfl, rfl, rfl⟩, rfl, rfl, fun _ => rfl, nofun⟩
        · exact ⟨_, s, true, rfl, ⟨by simp, by simp, hk, .inl rfl⟩, by simp [Out.pending, hs], rfl,
            ⟨rfl, rfl, rfl⟩, rfl, rfl, nofun, fun h => by cases h⟩

/-! ## Runs -/

/-- What happens to the output of a client: a reply and a message to it, the round before the server
sleeps, a call of its handler; it is protected or not any more; its flags change. -/
inductive OutEv where
  | reply (s : Sds)
  | message (argv : List Sds)
  | beforeSleep (ws : List (ℤ × Bool)) (up installed : Bool)
  | writable (ws : List (ℤ × Bool)) (up : Bool)
  | protect
  | unprotect
  | flags (f : OutFlags)

/-- One event: the client, and the bytes that the socket took. -/
def outStep (E : OutEnv) (c : Out) : OutEv → Option (Out × Sds)
  | .reply s => some (addReplyProto E c s, [])
  | .message argv => some (feedReplica E c argv, [])
  | .beforeSleep ws up installed => handlePendingWrite c ws up installed
  | .writable ws up => sendReplyToClient c ws up
  | .protect => some (protectClient c, [])
  | .unprotect => some (unprotectClient c, [])
  | .flags f => some ({ c with flags := f }, [])

/-- A run; the environment is that of each event. -/
def outRun : Out → List (OutEnv × OutEv) → Option (Out × Sds)
  | c, [] => some (c, [])
  | c, (E, e) :: es =>
    match outStep E c e with
    | none => none
    | some (c, s) => (outRun c es).map fun r => (r.1, s ++ r.2)

/-- The flags after an event. -/
def OutEv.next (f : OutFlags) : OutEv → OutFlags
  | .message _ => f.message false
  | .flags g => g
  | _ => f

/-- The bytes that an event should add to the output. -/
def OutEv.adds (f : OutFlags) : OutEv → Sds
  | .reply s => if f.accepts then s else []
  | .message argv => if (f.message true).accepts then respCommand argv else []
  | _ => []

/-- The output that the events should give, in order. -/
def expected (f : OutFlags) : List OutEv → Sds
  | [] => []
  | e :: es => e.adds f ++ expected (e.next f) es

/-- The output of a client that `createClient` makes for a connection. -/
def Out.new : Out :=
  { buf := [], sentlen := 0, reply := [], replyBytes := 0,
    flags := ⟨false, false, false, false, false, false⟩, luaOrModule := false, connected := true,
    online := true, pendingWrite := false, writeHandler := false, protect := false,
    closeAsap := false, softSince := 0 }

theorem Out.Wf.new : Out.new.Wf := ⟨by decide, by simp [Out.new], rfl, .inl rfl⟩

theorem Out.Scheduled.new : Out.new.Scheduled :=
  ⟨⟨rfl, rfl, rfl⟩, by simp [Out.hasPending, Out.new]⟩

/-- **One event** adds what it should and takes from the front, and the client stays scheduled. -/
theorem outStep_spec (E : OutEnv) {c : Out} (hw : c.Wf) (hs : c.Scheduled) (e : OutEv) :
    ∃ c' s, outStep E c e = some (c', s) ∧ c'.Wf ∧ c'.Scheduled ∧ c'.flags = e.next c.flags ∧
      s ++ c'.pending = c.pending ++ e.adds c.flags := by
  cases e with
  | reply s =>
    have h := addReplyProto_spec E hw hs s
    exact ⟨_, [], rfl, h.wf, h.scheduled, h.flags, h.pending⟩
  | message argv =>
    obtain ⟨hwf, hsc, hf, hp⟩ := feedReplica_spec E hw hs argv
    exact ⟨_, [], rfl, hwf, hsc, hf, hp⟩
  | beforeSleep ws up installed =>
    simp only [outStep, handlePendingWrite, OutEv.adds, List.append_nil]
    cases hq : c.pendingWrite with
    | false =>
      simp only [Bool.not_false, if_true]
      exact ⟨c, [], rfl, hw, hs, rfl, rfl⟩
    | true =>
      simp only [Bool.not_true, Bool.false_eq_true, if_false]
      have hw₀ : ({ c with pendingWrite := false } : Out).Wf :=
        ⟨hw.buf, hw.blocks, hw.bytes, hw.sent⟩
      split
      · rename_i hprot
        exact ⟨_, [], rfl, hw₀, ⟨hs.client, fun _ _ => .inr (.inr hprot)⟩, rfl, rfl⟩
      · obtain ⟨c₁, s, valid, hwrite, hwf, hpend, hf, ⟨hl, hco, ho⟩, -, -, hinv, -⟩ :=
          writeToClient_spec hw₀ false ws up
        have hclient : c₁.luaOrModule = false ∧ c₁.connected = true ∧ c₁.online = true :=
          ⟨hl.trans hs.client.1, hco.trans hs.client.2.1, ho.trans hs.client.2.2⟩
        rw [hwrite]
        cases valid with
        | false =>
          have hclosed := hinv rfl
          exact ⟨c₁, s, rfl, hwf, ⟨hclient, fun _ h => by rw [hclosed] at h; cases h⟩, hf, hpend⟩
        | true =>
          simp only
          split
          · split
            · exact ⟨_, s, rfl, ⟨hwf.buf, hwf.blocks, hwf.bytes, hwf.sent⟩,
                ⟨hclient, fun _ _ => .inr (.inl rfl)⟩, hf, hpend⟩
            · exact ⟨_, s, rfl, ⟨hwf.buf, hwf.blocks, hwf.bytes, hwf.sent⟩,
                ⟨hclient, nofun⟩, hf, hpend⟩
          · rename_i hnone
            exact ⟨c₁, s, rfl, hwf, ⟨hclient, fun h => absurd h hnone⟩, hf, hpend⟩
  | writable ws up =>
    simp only [outStep, sendReplyToClient, OutEv.adds, List.append_nil]
    split
    · obtain ⟨c₁, s, valid, hwrite, hwf, hpend, hf, ⟨hl, hco, ho⟩, hpw, hpr, -, hkeep⟩ :=
        writeToClient_spec hw true ws up
      refine ⟨c₁, s, by rw [hwrite]; rfl, hwf, ⟨⟨hl.trans hs.client.1, hco.trans hs.client.2.1,
        ho.trans hs.client.2.2⟩, fun hp hc => ?_⟩, hf, hpend⟩
      obtain ⟨hh, hc₀⟩ := hkeep hp hc
      have hp₀ : c.hasPending = true := by
        by_contra hno
        rw [Bool.not_eq_true, ← hw.pending_eq_nil] at hno
        rw [hno, List.append_eq_nil_iff, hwf.pending_eq_nil, hp] at hpend
        exact absurd hpend.2 (by simp)
      rw [hpw, hpr, hh]
      exact hs.sched hp₀ hc₀
    · exact ⟨c, [], rfl, hw, hs, rfl, rfl⟩
  | protect =>
    exact ⟨_, [], rfl, ⟨hw.buf, hw.blocks, hw.bytes, hw.sent⟩,
      ⟨hs.client, fun _ _ => .inr (.inr rfl)⟩, rfl,
      by simp [OutEv.adds, protectClient, Out.pending]⟩
  | unprotect =>
    simp only [outStep, unprotectClient, OutEv.adds, List.append_nil]
    split
    · split
      · unfold clientInstallWriteHandler
        split
        · exact ⟨_, [], rfl, ⟨hw.buf, hw.blocks, hw.bytes, hw.sent⟩,
            ⟨hs.client, fun _ _ => .inl rfl⟩, rfl, rfl⟩
        · rename_i hp hpw
          simp only [hs.client.2.2, Bool.and_true, Bool.not_eq_true', Bool.not_eq_false] at hpw
          exact ⟨_, [], rfl, ⟨hw.buf, hw.blocks, hw.bytes, hw.sent⟩,
            ⟨hs.client, fun _ _ => .inl hpw⟩, rfl, rfl⟩
      · rename_i hnone
        exact ⟨_, [], rfl, ⟨hw.buf, hw.blocks, hw.bytes, hw.sent⟩,
          ⟨hs.client, fun h => absurd h hnone⟩, rfl, rfl⟩
    · exact ⟨c, [], rfl, hw, hs, rfl, rfl⟩
  | flags f =>
    exact ⟨_, [], rfl, hw.setFlags f, hs.setFlags f, rfl, by simp [OutEv.adds, Out.pending]⟩

/-- The run lemma of `outStep_spec`. -/
theorem outRun_spec {c : Out} (hw : c.Wf) (hs : c.Scheduled) (es : List (OutEnv × OutEv)) :
    ∃ c' s, outRun c es = some (c', s) ∧ c'.Wf ∧ c'.Scheduled ∧
      s ++ c'.pending = c.pending ++ expected c.flags (es.map Prod.snd) := by
  induction es generalizing c with
  | nil => exact ⟨c, [], rfl, hw, hs, by simp [expected]⟩
  | cons e es ih =>
    obtain ⟨c₁, s₁, hstep, hw₁, hs₁, hf, hp⟩ := outStep_spec e.1 hw hs e.2
    obtain ⟨c₂, s₂, hrun, hw₂, hs₂, hp₂⟩ := ih hw₁ hs₁
    refine ⟨c₂, s₁ ++ s₂, by simp only [outRun, hstep, hrun]; rfl, hw₂, hs₂, ?_⟩
    rw [List.append_assoc, hp₂, ← List.append_assoc, hp, hf, List.append_assoc]
    rfl

/-- **The output of a client is a FIFO stream**: for every sequence of replies, messages, rounds and
calls of the handler, whatever part the socket takes of each piece, and whatever the allocator, the
limits and the time are at each of them, the bytes that the socket took and the pending ones are
what the events should add, in order and once. The assertion on `reply_bytes` holds, and a client
that is not closed has a pending byte only while it is in the queue, has its handler, or is
protected. -/
theorem output_fifo (es : List (OutEnv × OutEv)) :
    ∃ c s, outRun Out.new es = some (c, s) ∧
      s ++ c.pending = expected Out.new.flags (es.map Prod.snd) ∧
      (c.pending ≠ [] → c.closeAsap = false →
        c.pendingWrite = true ∨ c.writeHandler = true ∨ c.protect = true) := by
  obtain ⟨c, s, hrun, hw, hs, hp⟩ := outRun_spec .new .new es
  refine ⟨c, s, hrun, hp, fun hne hc => hs.sched ?_ hc⟩
  by_contra hno
  rw [Bool.not_eq_true, ← hw.pending_eq_nil] at hno
  exact hne hno

end CrdtRedis

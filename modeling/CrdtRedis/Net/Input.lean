import CrdtRedis.Net.Output
import CrdtRedis.P2p.Replicate

/-!
# The input of a client (`networking.c`)

What is read from a client is appended to `querybuf`, and `processInputBuffer` takes the commands
from there that are complete. A command of the protocol is read in pieces: the number of its
arguments, then for each one its length and its bytes (`processMultibulkBuffer`). What is missing is
read the next time; `multibulklen`, `bulklen` and `argv` keep what was read.

* `Reading`: a client that has read a part of a command, and the bytes that it has still to get.
* `processMultibulkBuffer_spec`: the command is complete as soon as these bytes are there.
* `Synced`: the commands that were sent and not executed, and the bytes of them that were not read.
* `readQueryFromClient_spec`: however the bytes are cut into pieces, the commands that are executed
  are those that were sent, in order, and no assertion and no check of the protocol fails. Of the
  commands of `Sendable`, which neither close nor block their client, only a buffer over its limit
  closes it, which takes a pause.
-/

namespace CrdtRedis

/-- The greatest size of an inline request, and of a line with a number. -/
def PROTO_INLINE_MAX_SIZE : ℕ := 1024 * 64

/-- An argument of this size is read into a buffer of its own, if possible. -/
def PROTO_MBULK_BIG_ARG : ℕ := 1024 * 32

/-- The size of one read. -/
def PROTO_IOBUF_LEN : ℕ := 1024 * 16

/-- `reqtype`. -/
inductive ReqType where
  | inline
  | multibulk
  deriving DecidableEq

/-- The input part of a client. `argc` is the length of `argv`; `bulklen` is `none` for -1. -/
structure In where
  querybuf : Sds
  qbPos : ℕ
  reqtype : Option ReqType
  multibulklen : ℕ
  bulklen : Option ℕ
  argv : List Sds
  /-- `CLIENT_CLOSE_AFTER_REPLY` or `CLIENT_CLOSE_ASAP`. -/
  closed : Bool

/-- What a command that was executed did to its client: nothing that matters to the input, it closed
or freed it (`QUIT`), or it blocked it (`BLPOP`). -/
inductive Executed where
  | stays
  | closes
  | blocks
  deriving DecidableEq

/-- What the input depends on: the limits, the Gopher mode, how an inline request is split into
arguments (`none`: unbalanced quotes), and what the commands do to their client. -/
structure InCfg where
  protoMaxBulkLen : ℕ
  clientMaxQuerybufLen : ℕ
  gopherEnabled : Bool
  sdssplitargs : Sds → Option (List Sds)
  executed : List Sds → Executed
  /-- `proto_max_bulk_len` is a `long long`. -/
  protoMaxBulkLen_lt : protoMaxBulkLen < 2 ^ 63

/-- The answer of the parsers: `C_OK`, or `C_ERR` because bytes are missing or of an error in the
protocol. -/
inductive Parsed where
  | ok
  | more
  | error (msg : String)
  deriving DecidableEq

/-- The bytes from `qb_pos` on. -/
def In.rest (c : In) : Sds := c.querybuf.drop c.qbPos

/-- `strchr`, as a position. The string ends at its first NUL. -/
def strchr (s : Sds) (ch : Char) : Option ℕ := (s.takeWhile (· != '\x00')).findIdx? (· == ch)

/-- The end of the line with a number: the position of its `\r`, if the `\n` is there as well. -/
def findNewline (tooBig : String) (rest : Sds) : Except Parsed ℕ :=
  match strchr rest '\r' with
  | none => .error (if PROTO_INLINE_MAX_SIZE < rest.length then .error tooBig else .more)
  | some k => if rest.length < k + 2 then .error .more else .ok k

/-- The answer `r`; after an error the client is closed. -/
def In.answer (c : In) (r : Parsed) : In × Parsed :=
  match r with
  | .error msg => ({ c with closed := true }, .error msg)
  | r => (c, r)

/-- The text of the error for a byte that is not `$`. The reply has no line break. -/
def expectedBulk (got : Char) : String :=
  String.ofList ("Protocol error: expected '$', got '".toList ++
    [if got == '\r' || got == '\n' then ' ' else got] ++ ['\''])

/-- The length of the next argument, if it is not known. A long argument that was not read to its
end is moved to the start of the buffer. -/
def readBulkLen (cfg : InCfg) (c : In) : In × Parsed :=
  match c.bulklen with
  | some _ => (c, .ok)
  | none =>
    match findNewline "Protocol error: too big bulk count string" c.rest with
    | .error r => c.answer r
    | .ok k =>
      if c.rest.head? ≠ some '$' then
        c.answer (.error (expectedBulk (c.rest.head?.getD '\x00')))
      else match string2ll ((c.rest.take k).drop 1) with
        | none => c.answer (.error "Protocol error: invalid bulk length")
        | some ll =>
          if ll < 0 || (cfg.protoMaxBulkLen : ℤ) < ll then
            c.answer (.error "Protocol error: invalid bulk length")
          else
            let c := { c with qbPos := c.qbPos + k + 2 }
            let c := if PROTO_MBULK_BIG_ARG ≤ ll.toNat && c.rest.length ≤ ll.toNat + 2 then
              { c with querybuf := c.rest, qbPos := 0 } else c
            ({ c with bulklen := some ll.toNat }, .ok)

/-- The loop of `processMultibulkBuffer` over the arguments, where `multibulklen` are missing. -/
def readBulks (cfg : InCfg) : ℕ → In → In × Parsed
  | 0, c => (c, .ok)
  | k + 1, c =>
    match readBulkLen cfg c with
    | (c, .ok) =>
      let len := c.bulklen.getD 0
      if c.rest.length < len + 2 then (c, .more)
      else if c.qbPos = 0 && PROTO_MBULK_BIG_ARG ≤ len && c.querybuf.length = len + 2 then
        -- the buffer becomes the argument
        readBulks cfg k { c with
          argv := c.argv ++ [c.querybuf.take len], querybuf := [], bulklen := none,
          multibulklen := k }
      else
        readBulks cfg k { c with
          argv := c.argv ++ [c.rest.take len], qbPos := c.qbPos + len + 2, bulklen := none,
          multibulklen := k }
    | r => r

/-- `processMultibulkBuffer`; `none`: an assertion fails. -/
def processMultibulkBuffer (cfg : InCfg) (c : In) : Option (In × Parsed) :=
  if c.multibulklen ≠ 0 then some (readBulks cfg c.multibulklen c)
  else if c.argv ≠ [] then none
  else match findNewline "Protocol error: too big mbulk count string" c.rest with
    | .error r => some (c.answer r)
    | .ok k =>
      if c.rest.head? ≠ some '*' then none
      else match string2ll ((c.rest.take k).drop 1) with
        | none => some (c.answer (.error "Protocol error: invalid multibulk length"))
        | some ll =>
          if 1024 * 1024 < ll then
            some (c.answer (.error "Protocol error: invalid multibulk length"))
          else
            let c := { c with qbPos := c.qbPos + k + 2 }
            if ll ≤ 0 then some (c, .ok)
            else some (readBulks cfg ll.toNat { c with multibulklen := ll.toNat, argv := [] })

/-- `processInlineBuffer`, of a client that is no master. -/
def processInlineBuffer (cfg : InCfg) (c : In) : In × Parsed :=
  match strchr c.rest '\n' with
  | none => c.answer (if PROTO_INLINE_MAX_SIZE < c.rest.length then
      .error "Protocol error: too big inline request" else .more)
  | some k =>
    let cr := k ≠ 0 && (c.rest.take k).getLast? == some '\r'
    let querylen := if cr then k - 1 else k
    match cfg.sdssplitargs (c.rest.take querylen) with
    | none => c.answer (.error "Protocol error: unbalanced quotes in request")
    | some argv => ({ c with qbPos := c.qbPos + k + 1, argv := argv }, .ok)

/-- `resetClient`. -/
def In.reset (c : In) : In :=
  { c with argv := [], reqtype := none, multibulklen := 0, bulklen := none }

/-- The request type, which the first byte tells. -/
def In.withReqtype (c : In) : In :=
  match c.reqtype with
  | some _ => c
  | none => { c with reqtype := some (if c.rest.head? = some '*' then .multibulk else .inline) }

/-- The loop of `processInputBuffer`, and the commands that it executes. `halt i`: round `i` ends
the loop because clients are paused or this one is blocked. A link is no `CLIENT_SLAVE`, so that a
pause holds for it as well. -/
def inputLoop (cfg : InCfg) : ℕ → (ℕ → Bool) → In → Option (In × List (List Sds))
  | 0, _, c => some (c, [])
  | fuel + 1, halt, c =>
    if c.querybuf.length ≤ c.qbPos then some (c, [])
    else if halt 0 then some (c, [])
    else if c.closed then some (c, [])
    else
      let c := c.withReqtype
      let parsed := match c.reqtype with
        | some .multibulk => processMultibulkBuffer cfg c
        | _ => some (processInlineBuffer cfg c)
      match parsed with
      | none => none
      | some (c, .ok) =>
        if c.reqtype = some .inline && cfg.gopherEnabled &&
            (c.argv.isEmpty || c.argv.length = 1 && (c.argv.head?.bind List.head?) == some '/') then
          some ({ c.reset with closed := true }, [])
        else if c.argv.isEmpty then inputLoop cfg fuel (fun i => halt (i + 1)) c.reset
        else match cfg.executed c.argv with
          | .stays =>
            (inputLoop cfg fuel (fun i => halt (i + 1)) c.reset).map fun r => (r.1, c.argv :: r.2)
          | .closes => some ({ c.reset with closed := true }, [c.argv])
          | .blocks => some (c.reset, [c.argv])
      | some (c, _) => some (c, [])

/-- `processInputBuffer`. A round of the loop takes at least one byte. -/
def processInputBuffer (cfg : InCfg) (halt : ℕ → Bool) (c : In) : Option (In × List (List Sds)) :=
  (inputLoop cfg (c.rest.length + 1) halt c).map fun r =>
    ({ r.1 with querybuf := r.1.rest, qbPos := 0 }, r.2)

/-- How many bytes are asked for: for a long argument, no more than it needs. -/
def readlen (c : In) : ℕ :=
  match c.reqtype, c.bulklen with
  | some .multibulk, some len =>
    let remaining := len + 2 - c.querybuf.length
    if c.multibulklen ≠ 0 && PROTO_MBULK_BIG_ARG ≤ len && 0 < remaining &&
      remaining < PROTO_IOBUF_LEN then remaining else PROTO_IOBUF_LEN
  | _, _ => PROTO_IOBUF_LEN

/-- The answer of `connRead`: nothing to read, a connection that has ended or failed, or bytes. -/
inductive ConnRead where
  | again
  | lost
  | data (s : Sds)

/-- `readQueryFromClient`, and the commands that it executes. -/
def readQueryFromClient (cfg : InCfg) (halt : ℕ → Bool) (c : In) :
    ConnRead → Option (In × List (List Sds))
  | .again => some (c, [])
  | .lost => some ({ c with closed := true }, [])
  | .data s =>
    let c := { c with querybuf := c.querybuf ++ s }
    if cfg.clientMaxQuerybufLen < c.querybuf.length then some ({ c with closed := true }, [])
    else processInputBuffer cfg halt c

/-! ## The line with a number -/

/-- A piece `x` of a stream was read to its end, or bytes of it are missing. -/
theorem append_cut {α : Type*} {l f x s : List α} (h : l ++ f = x ++ s) :
    (∃ t, l = x ++ t ∧ t ++ f = s) ∨ ∃ t, t ≠ [] ∧ x = l ++ t := by
  rcases List.append_eq_append_iff.mp h with ⟨t, hx, hf⟩ | ⟨t, hl, hs⟩
  · by_cases ht : t = []
    · subst ht
      exact .inl ⟨[], by simpa using hx.symm, by simpa using hf⟩
    · exact .inr ⟨t, ht, hx⟩
  · exact .inl ⟨t, hl, hs.symm⟩

theorem strchr_eq_none {s : Sds} {ch : Char} (h : ch ∉ s) : strchr s ch = none := by
  unfold strchr
  rw [List.findIdx?_eq_none_iff]
  intro c hc
  have hmem : c ∈ s := (List.takeWhile_sublist _).subset hc
  simp only [beq_eq_false_iff_ne]
  rintro rfl
  exact h hmem

theorem strchr_append {s t : Sds} {ch : Char} (h : ch ∉ s) (h0 : '\x00' ∉ s) (hch : ch ≠ '\x00') :
    strchr (s ++ ch :: t) ch = some s.length := by
  have htake : (s ++ ch :: t).takeWhile (· != '\x00') =
      s ++ ch :: t.takeWhile (· != '\x00') := by
    rw [List.takeWhile_append_of_pos, List.takeWhile_cons_of_pos (by simpa using hch)]
    intro c hc
    simp only [bne_iff_ne, ne_eq]
    rintro rfl
    exact h0 hc
  have hnone : s.findIdx? (· == ch) = none := by
    rw [List.findIdx?_eq_none_iff]
    intro c hc
    simp only [beq_eq_false_iff_ne]
    rintro rfl
    exact h hc
  unfold strchr
  rw [htake, List.findIdx?_append, hnone, List.findIdx?_cons]
  simp

/-- The longest line with a number that is a `long long`. -/
def lineMax : ℕ := 22

section Line

variable {pre : Char}

/-- The text of a line has no byte that ends it. -/
theorem notMem_line (n : ℕ) {ch : Char} (hch : ch.isDigit = false) (hpre : pre ≠ ch) :
    ch ∉ pre :: numText n := by
  intro h
  rcases List.mem_cons.mp h with rfl | h
  · exact hpre rfl
  · rw [isDigit_of_mem_numText h] at hch
    cases hch

theorem length_sharedHdr (n : ℕ) : (sharedHdr pre n).length = (numText n).length + 3 := by
  simp [sharedHdr, crlf]

theorem length_sharedHdr_le (pre : Char) {n : ℕ} (hn : n < 2 ^ 63) :
    (sharedHdr pre n).length ≤ lineMax := by
  have hdigits : (numText n).length ≤ 19 :=
    (Nat.length_toDigits_le_iff (by decide) (by decide)).mpr (lt_of_lt_of_le hn (by decide))
  rw [length_sharedHdr]
  unfold lineMax
  omega

variable (hpre : pre ≠ '\r' ∧ pre ≠ '\x00')

include hpre

theorem findNewline_line (msg : String) (n : ℕ) (t : Sds) :
    findNewline msg (sharedHdr pre n ++ t) = .ok ((numText n).length + 1) := by
  have hchr : strchr (sharedHdr pre n ++ t) '\r' = some ((numText n).length + 1) := by
    have h := strchr_append (t := '\n' :: t) (notMem_line n (by decide) hpre.1)
      (notMem_line n (by decide) hpre.2) (by decide)
    simpa [sharedHdr, crlf] using h
  unfold findNewline
  rw [hchr]
  simp only
  rw [if_neg]
  rw [List.length_append, length_sharedHdr]
  omega

/-- A line that has not ended is waited for. -/
theorem findNewline_more (msg : String) {n : ℕ} (hn : n < 2 ^ 63) {l t : Sds} (ht : t ≠ [])
    (h : sharedHdr pre n = l ++ t) : findNewline msg l = .error .more := by
  have hlen : l.length ≤ PROTO_INLINE_MAX_SIZE := by
    have hle := length_sharedHdr_le pre hn
    rw [h, List.length_append] at hle
    unfold lineMax at hle
    unfold PROTO_INLINE_MAX_SIZE
    omega
  have hcr : '\r' ∉ pre :: numText n := notMem_line n (by decide) hpre.1
  -- The missing part ends with the line break; either the `\r` was read or it was not.
  obtain ⟨t, z, rfl⟩ := (List.eq_nil_or_concat t).resolve_left ht
  have h₁ : ((pre :: numText n) ++ ['\r']) ++ ['\n'] = (l ++ t) ++ [z] := by
    simpa [sharedHdr, crlf] using h
  obtain ⟨h₁, -⟩ := List.append_inj' h₁ rfl
  rcases List.eq_nil_or_concat t with rfl | ⟨t, y, rfl⟩
  · rw [List.append_nil] at h₁
    have hchr : strchr l '\r' = some (pre :: numText n).length := by
      rw [← h₁]
      exact strchr_append hcr (notMem_line n (by decide) hpre.2) (by decide)
    unfold findNewline
    rw [hchr, ← h₁]
    simp
  · have h₂ : (pre :: numText n) ++ ['\r'] = (l ++ t) ++ [y] := by simpa using h₁
    obtain ⟨h₂, -⟩ := List.append_inj' h₂ rfl
    have hl : '\r' ∉ l := fun hm => hcr (h₂ ▸ List.mem_append_left t hm)
    unfold findNewline
    rw [strchr_eq_none hl]
    simp only
    rw [if_neg (by omega)]

end Line

/-! ## One command -/

/-- A command that the reader takes: it has arguments, they are within the limits, and its execution
leaves the client open. -/
structure Sendable (cfg : InCfg) (a : List Sds) : Prop where
  ne_nil : a ≠ []
  argc : a.length ≤ 1024 * 1024
  arg : ∀ x ∈ a, x.length ≤ cfg.protoMaxBulkLen
  stays : cfg.executed a = .stays

/-- No byte of a command was taken from the buffer. -/
structure In.Fresh (c : In) : Prop where
  reqtype : c.reqtype ≠ some .inline
  multibulklen : c.multibulklen = 0
  bulklen : c.bulklen = none
  argv : c.argv = []
  opened : c.closed = false

/-- The arguments `more` of the command `a` are missing. -/
structure In.Args (c : In) (a more : List Sds) : Prop where
  reqtype : c.reqtype = some .multibulk
  argv : a = c.argv ++ more
  multibulklen : c.multibulklen = more.length
  opened : c.closed = false

/-- A part of the command `a` was taken from the buffer, and the given bytes of it were not. -/
inductive Reading (c : In) (a : List Sds) : Sds → Prop
  | start (h : c.Fresh) : Reading c a (respCommand a)
  | args (more : List Sds) (h : c.Args a more) (hne : more ≠ []) (hb : c.bulklen = none) :
      Reading c a (more.flatMap respBulk)
  | arg (x : Sds) (more : List Sds) (h : c.Args a (x :: more)) (hb : c.bulklen = some x.length) :
      Reading c a (x ++ crlf ++ more.flatMap respBulk)

/-- The most that a client keeps of a command that is not complete. -/
def InCfg.restMax (cfg : InCfg) : ℕ := cfg.protoMaxBulkLen + lineMax

/-- What a parser does with the command `a`, where `S` follows it and `F` was not read: the command
is complete, or too few bytes are there for its next piece. -/
inductive Parses (cfg : InCfg) (a : List Sds) (F S : Sds) : In × Parsed → Prop
  | done {c : In} (ht : c.reqtype = some .multibulk) (ho : c.closed = false) (ha : c.argv = a)
      (hr : c.rest ++ F = S) : Parses cfg a F S (c, .ok)
  | wait {c : In} {T : Sds} (ht : c.reqtype = some .multibulk) (h : Reading c a T)
      (hr : c.rest ++ F = T ++ S) (hlt : c.rest.length < T.length)
      (hle : c.rest.length ≤ cfg.restMax) : Parses cfg a F S (c, .more)

theorem length_lt_of_append {l t x : Sds} (ht : t ≠ []) (h : x = l ++ t) :
    l.length < x.length := by
  have := List.length_pos_iff.mpr ht
  rw [h, List.length_append]
  omega

section Command

variable {cfg : InCfg} {c : In} {a more : List Sds} {x F S : Sds}

theorem In.drop_querybuf {X t : Sds} (hr : c.rest = X ++ t) :
    c.querybuf.drop (c.qbPos + X.length) = t := by
  rw [← List.drop_drop]
  exact (congrArg (List.drop X.length) hr).trans List.drop_left

/-- What is read from a line: its end, its first byte, its number, and what follows. -/
theorem In.read_line {pre : Char} (hpre : pre ≠ '\r' ∧ pre ≠ '\x00') (msg : String) {n : ℕ}
    {t : Sds} (hr : c.rest = sharedHdr pre n ++ t) :
    ∃ k, findNewline msg c.rest = .ok k ∧ c.rest.head? = some pre ∧
      (c.rest.take k).drop 1 = numText n ∧ c.querybuf.drop (c.qbPos + k + 2) = t := by
  refine ⟨(numText n).length + 1, ?_, by rw [hr]; rfl, by rw [hr]; simp [sharedHdr], ?_⟩
  · rw [hr, findNewline_line hpre]
  · have h := In.drop_querybuf hr
    rw [length_sharedHdr] at h
    exact h

/-- The length of an argument. The buffer may be moved, which does not change its rest. -/
theorem readBulkLen_spec {n : ℕ} (hn : n ≤ cfg.protoMaxBulkLen) (hb : c.bulklen = none)
    {t : Sds} (hr : c.rest = sharedHdr '$' n ++ t) :
    ∃ q p, readBulkLen cfg c =
        ({ c with querybuf := q, qbPos := p, bulklen := some n }, .ok) ∧ q.drop p = t := by
  have hlt : n < 2 ^ 63 := lt_of_le_of_lt hn cfg.protoMaxBulkLen_lt
  obtain ⟨k, hline, hhead, hnum, hdrop⟩ :=
    In.read_line (by decide) "Protocol error: too big bulk count string" hr
  unfold readBulkLen
  rw [hb]
  simp only [hline, hhead, ne_eq, not_true_eq_false, if_false, hnum, string2ll_numText hlt]
  rw [if_neg (by simp; omega)]
  simp only [In.rest, hdrop, Int.toNat_natCast]
  split
  · exact ⟨_, _, rfl, rfl⟩
  · exact ⟨_, _, rfl, hdrop⟩

theorem readBulkLen_more {n : ℕ} (hn : n ≤ cfg.protoMaxBulkLen) (hb : c.bulklen = none)
    {t : Sds} (ht : t ≠ []) (hr : sharedHdr '$' n = c.rest ++ t) :
    readBulkLen cfg c = (c, .more) := by
  have hlt : n < 2 ^ 63 := lt_of_le_of_lt hn cfg.protoMaxBulkLen_lt
  unfold readBulkLen
  rw [hb]
  simp only
  rw [findNewline_more (by decide) _ hlt ht hr]
  rfl

/-- The bytes of an argument. A long one that is alone in the buffer is not copied, with the same
result. -/
theorem readBulks_arg (hx : x.length ≤ cfg.protoMaxBulkLen)
    (ih : ∀ {c : In}, c.Args a more → c.bulklen = none →
      c.rest ++ F = more.flatMap respBulk ++ S → Parses cfg a F S (readBulks cfg more.length c))
    (h : c.Args a (x :: more)) (hb : c.bulklen = some x.length)
    (hr : c.rest ++ F = x ++ crlf ++ more.flatMap respBulk ++ S) :
    Parses cfg a F S (readBulks cfg (more.length + 1) c) := by
  have hknown : readBulkLen cfg c = (c, .ok) := by simp [readBulkLen, hb]
  have hlen : (x ++ crlf).length = x.length + 2 := by simp [crlf]
  simp only [readBulks, hknown, hb, Option.getD_some]
  rw [List.append_assoc (x ++ crlf)] at hr
  rcases append_cut hr with ⟨t, ht, hF⟩ | ⟨t, hne, ht⟩
  · have htake : c.rest.take x.length = x := by simp [ht]
    have hargs : ∀ q p, ({ c with
        argv := c.argv ++ [x], querybuf := q, qbPos := p, bulklen := none,
        multibulklen := more.length } : In).Args a more :=
      fun q p => ⟨h.reqtype, by rw [h.argv]; simp, rfl, h.opened⟩
    rw [if_neg (by rw [ht, List.length_append, hlen]; omega)]
    split
    · rename_i hbig
      simp only [Bool.and_eq_true, decide_eq_true_eq] at hbig
      obtain ⟨⟨hpos, -⟩, hq⟩ := hbig
      have hrest : c.rest = c.querybuf := by simp [In.rest, hpos]
      -- The buffer holds the argument and its line break, and nothing else.
      have hnil : t = [] := by
        have hl := congrArg List.length ht
        rw [hrest, hq, List.length_append, hlen] at hl
        exact List.length_eq_zero_iff.mp (by omega)
      rw [← hrest, htake]
      refine ih (hargs _ _) rfl ?_
      simpa [In.rest, hnil] using hF
    · rw [htake]
      refine ih (hargs _ _) rfl ?_
      have hdrop : c.querybuf.drop (c.qbPos + x.length + 2) = t := by
        have hd := In.drop_querybuf ht
        rw [hlen] at hd
        exact hd
      simpa [In.rest, hdrop] using hF
  · have hlt := length_lt_of_append hne ht
    rw [if_pos (by omega)]
    refine .wait h.reqtype (.arg x more h hb) (by rw [hr, List.append_assoc (x ++ crlf)]) ?_ ?_
    · rw [List.length_append]
      omega
    · unfold InCfg.restMax lineMax
      omega

/-- The loop over the arguments. -/
theorem readBulks_spec (hmore : ∀ x ∈ more, x.length ≤ cfg.protoMaxBulkLen)
    (h : c.Args a more) (hb : c.bulklen = none)
    (hr : c.rest ++ F = more.flatMap respBulk ++ S) :
    Parses cfg a F S (readBulks cfg more.length c) := by
  induction more generalizing c with
  | nil =>
    have ha := h.argv
    rw [List.append_nil] at ha
    exact .done h.reqtype h.opened ha.symm (by simpa using hr)
  | cons x more ih =>
    have hx := hmore x List.mem_cons_self
    have hr' : c.rest ++ F = sharedHdr '$' x.length ++
        (x ++ crlf ++ more.flatMap respBulk ++ S) := by
      rw [hr]
      simp [respBulk]
    rcases append_cut hr' with ⟨t, ht, hF⟩ | ⟨t, hne, ht⟩
    · obtain ⟨q, p, hlen, hq⟩ := readBulkLen_spec hx hb ht
      -- With its length known, the argument is read as in the round that finds the length known.
      have hknown : readBulkLen cfg { c with querybuf := q, qbPos := p, bulklen := some x.length } =
          ({ c with querybuf := q, qbPos := p, bulklen := some x.length }, .ok) := rfl
      have hsame : readBulks cfg (more.length + 1) c = readBulks cfg (more.length + 1)
          { c with querybuf := q, qbPos := p, bulklen := some x.length } := by
        simp only [readBulks, hlen, hknown]
      rw [List.length_cons, hsame]
      refine readBulks_arg hx (ih fun y hy => hmore y (List.mem_cons_of_mem x hy))
        ⟨h.reqtype, h.argv, h.multibulklen, h.opened⟩ rfl ?_
      change q.drop p ++ F = _
      rw [hq, hF]
    · have hlt := length_lt_of_append hne ht
      have hmax := length_sharedHdr_le '$' (lt_of_le_of_lt hx cfg.protoMaxBulkLen_lt)
      simp only [List.length_cons, readBulks, readBulkLen_more hx hb hne ht]
      refine .wait h.reqtype (.args (x :: more) h (by simp) hb) hr ?_ ?_
      · simp only [List.flatMap_cons, respBulk, List.length_append]
        omega
      · unfold InCfg.restMax
        omega

/-- **One command**: the parser goes on where it stopped, and the command is complete as soon as its
bytes are there. No assertion and no check of the protocol fails. -/
theorem processMultibulkBuffer_spec {T : Sds} (h : Reading c a T)
    (hty : c.reqtype = some .multibulk) (hv : Sendable cfg a) (hr : c.rest ++ F = T ++ S) :
    ∃ r, processMultibulkBuffer cfg c = some r ∧ Parses cfg a F S r := by
  cases h with
  | start h =>
    have hpos : 0 < a.length := List.length_pos_iff.mpr hv.ne_nil
    have hlt : a.length < 2 ^ 63 := lt_of_le_of_lt hv.argc (by decide)
    unfold processMultibulkBuffer
    simp only [h.multibulklen, h.argv, ne_eq, not_true_eq_false, if_false]
    have hr' : c.rest ++ F = sharedHdr '*' a.length ++ (a.flatMap respBulk ++ S) := by
      rw [hr]
      simp [respCommand]
    rcases append_cut hr' with ⟨t, ht, hF⟩ | ⟨t, hne, ht⟩
    · obtain ⟨k, hline, hhead, hnum, hdrop⟩ :=
        In.read_line (by decide) "Protocol error: too big mbulk count string" ht
      have hargc := hv.argc
      simp only [hline, hhead, not_true_eq_false, if_false, hnum, string2ll_numText hlt]
      rw [if_neg (by omega), if_neg (by omega)]
      refine ⟨_, rfl, ?_⟩
      rw [Int.toNat_natCast]
      refine readBulks_spec hv.arg ⟨hty, rfl, rfl, h.opened⟩ h.bulklen ?_
      simpa [In.rest, hdrop] using hF
    · have hlt' := length_lt_of_append hne ht
      have hmax := length_sharedHdr_le '*' hlt
      rw [findNewline_more (by decide) _ hlt hne ht]
      refine ⟨_, rfl, .wait hty (.start h) hr ?_ ?_⟩
      · simp only [respCommand, List.length_append]
        omega
      · unfold InCfg.restMax
        omega
  | args more h hne hb =>
    have hlen : c.multibulklen ≠ 0 := by
      rw [h.multibulklen]
      exact (List.length_pos_iff.mpr hne).ne'
    have hmore : ∀ x ∈ more, x.length ≤ cfg.protoMaxBulkLen :=
      fun x hx => hv.arg x (h.argv ▸ List.mem_append_right _ hx)
    refine ⟨_, if_pos hlen, ?_⟩
    rw [h.multibulklen]
    exact readBulks_spec hmore h hb hr
  | arg x more h hb =>
    have hlen : c.multibulklen ≠ 0 := by
      rw [h.multibulklen]
      simp
    have hall : ∀ y ∈ x :: more, y.length ≤ cfg.protoMaxBulkLen :=
      fun y hy => hv.arg y (h.argv ▸ List.mem_append_right _ hy)
    refine ⟨_, if_pos hlen, ?_⟩
    rw [h.multibulklen]
    exact readBulks_arg (hall x List.mem_cons_self)
      (readBulks_spec fun y hy => hall y (List.mem_cons_of_mem x hy)) h hb hr

end Command

/-! ## The loop -/

/-- The commands `todo` were sent and not executed; the bytes `F` of them were not read. -/
inductive Synced (c : In) (F : Sds) : List (List Sds) → Prop
  | idle (h : c.Fresh) (hr : c.rest ++ F = []) : Synced c F []
  | busy {a : List Sds} {later : List (List Sds)} {T : Sds} (h : Reading c a T)
      (hr : c.rest ++ F = T ++ later.flatMap respCommand) : Synced c F (a :: later)

section Synced

variable {cfg : InCfg} {c : In} {a : List Sds} {T F : Sds} {todo : List (List Sds)}

theorem Reading.opened (h : Reading c a T) : c.closed = false := by
  cases h with
  | start h => exact h.opened
  | args more h => exact h.opened
  | arg x more h => exact h.opened

theorem Reading.ne_nil (h : Reading c a T) : T ≠ [] := by
  cases h with
  | start => simp [respCommand, sharedHdr]
  | args more h hne =>
    obtain ⟨x, more, rfl⟩ := List.exists_cons_of_ne_nil hne
    simp [respBulk, sharedHdr]
  | arg => simp [crlf]

/-- What was read does not depend on where the buffer holds its rest. -/
theorem Reading.move (h : Reading c a T) (q : Sds) (p : ℕ) :
    Reading { c with querybuf := q, qbPos := p } a T := by
  cases h with
  | start h => exact .start ⟨h.reqtype, h.multibulklen, h.bulklen, h.argv, h.opened⟩
  | args more h hne hb =>
    exact .args more ⟨h.reqtype, h.argv, h.multibulklen, h.opened⟩ hne hb
  | arg x more h hb => exact .arg x more ⟨h.reqtype, h.argv, h.multibulklen, h.opened⟩ hb

theorem Synced.opened (h : Synced c F todo) : c.closed = false := by
  cases h with
  | idle h => exact h.opened
  | busy h => exact h.opened

theorem Synced.of_fresh (h : c.Fresh) (hr : c.rest ++ F = todo.flatMap respCommand) :
    Synced c F todo := by
  cases todo with
  | nil => exact .idle h (by simpa using hr)
  | cons a later => exact .busy (.start h) (by simpa using hr)

/-- Nothing was read and nothing is to come: nothing was sent. -/
theorem Synced.eq_nil (h : Synced c F todo) (hrest : c.rest = []) (hF : F = []) : todo = [] := by
  cases h with
  | idle => rfl
  | busy h hr =>
    rw [hrest, hF, List.append_nil] at hr
    exact absurd (List.append_eq_nil_iff.mp hr.symm).1 h.ne_nil

/-- Bytes that were sent are read. -/
theorem Synced.move {G q : Sds} {p : ℕ} (h : Synced c F todo)
    (hq : q.drop p ++ G = c.rest ++ F) : Synced { c with querybuf := q, qbPos := p } G todo := by
  cases h with
  | idle h hr =>
    exact .idle ⟨h.reqtype, h.multibulklen, h.bulklen, h.argv, h.opened⟩ (hq.trans hr)
  | busy h hr => exact .busy (h.move q p) (hq.trans hr)

/-- A command is sent. -/
theorem Synced.send (h : Synced c F todo) (a : List Sds) :
    Synced c (F ++ respCommand a) (todo ++ [a]) := by
  cases h with
  | idle h hr => exact .of_fresh h (by rw [← List.append_assoc, hr]; simp)
  | busy h hr => exact .busy h (by rw [← List.append_assoc, hr]; simp)

theorem In.withReqtype_rest (c : In) : c.withReqtype.rest = c.rest := by
  unfold In.withReqtype
  split <;> rfl

/-- A command of the protocol is taken for one. -/
theorem Reading.withReqtype (h : Reading c a T) {S : Sds} (hne : c.rest ≠ [])
    (hr : c.rest ++ F = T ++ S) :
    Reading c.withReqtype a T ∧ c.withReqtype.reqtype = some .multibulk := by
  cases h with
  | args more h =>
    unfold In.withReqtype
    rw [h.reqtype]
    exact ⟨.args more h ‹_› ‹_›, h.reqtype⟩
  | arg x more h =>
    unfold In.withReqtype
    rw [h.reqtype]
    exact ⟨.arg x more h ‹_›, h.reqtype⟩
  | start h =>
    have hhead : c.rest.head? = some '*' := by
      obtain ⟨y, l, hl⟩ := List.exists_cons_of_ne_nil hne
      rw [hl] at hr
      have hy : y = '*' := by
        simp only [respCommand, sharedHdr, List.cons_append, List.cons.injEq] at hr
        exact hr.1
      rw [hl, hy]
      rfl
    unfold In.withReqtype
    cases hty : c.reqtype with
    | none =>
      simp only [hhead, if_true]
      exact ⟨.start ⟨by simp, h.multibulklen, h.bulklen, h.argv, h.opened⟩, trivial⟩
    | some ty =>
      cases ty with
      | inline => exact absurd hty h.reqtype
      | multibulk => exact ⟨.start h, hty⟩

/-- **The loop** executes the commands that were sent, from the first one on. If nothing stops it,
it leaves less than a piece of a command, and nothing if nothing is to come. -/
theorem inputLoop_spec (fuel : ℕ) (halt : ℕ → Bool) (h : Synced c F todo)
    (hv : ∀ a ∈ todo, Sendable cfg a) :
    ∃ c' done todo', inputLoop cfg fuel halt c = some (c', done) ∧ todo = done ++ todo' ∧
      Synced c' F todo' ∧ ((∀ i, halt i = false) → c.rest.length < fuel →
        c'.rest.length ≤ cfg.restMax ∧ (F = [] → todo' = [])) := by
  induction fuel generalizing c todo halt with
  | zero => exact ⟨c, [], todo, rfl, rfl, h, fun _ hlt => absurd hlt (by omega)⟩
  | succ fuel ih =>
    unfold inputLoop
    by_cases hend : c.querybuf.length ≤ c.qbPos
    · have hrest : c.rest = [] := List.drop_eq_nil_iff.mpr hend
      rw [if_pos hend]
      exact ⟨c, [], todo, rfl, rfl, h, fun _ _ => ⟨by simp [hrest], h.eq_nil hrest⟩⟩
    have hne : c.rest ≠ [] := fun hnil => hend (List.drop_eq_nil_iff.mp hnil)
    rw [if_neg hend]
    by_cases hstop : halt 0 = true
    · rw [if_pos hstop]
      exact ⟨c, [], todo, rfl, rfl, h, fun hgo => absurd hstop (by simp [hgo 0])⟩
    rw [if_neg hstop, if_neg (by simp [h.opened])]
    cases h with
    | idle h hr => exact absurd (List.append_eq_nil_iff.mp hr).1 hne
    | @busy a later T h hr =>
      obtain ⟨h₁, hty⟩ := h.withReqtype hne hr
      have hr₁ : c.withReqtype.rest ++ F = T ++ later.flatMap respCommand := by
        rw [In.withReqtype_rest, hr]
      obtain ⟨r, hparse, hr'⟩ :=
        processMultibulkBuffer_spec h₁ hty (hv a List.mem_cons_self) hr₁
      simp only [hty, hparse]
      cases hr' with
      | @wait c' T' hty' h' hrest' hlt hle =>
        refine ⟨c', [], a :: later, rfl, rfl, .busy h' hrest', fun _ _ => ⟨hle, fun hF => ?_⟩⟩
        -- Bytes are missing, so that some are to come.
        have hlen := congrArg List.length hrest'
        rw [hF, List.append_nil, List.length_append] at hlen
        omega
      | @done c' hty' ho ha hrest' =>
        have hargv : c'.argv.isEmpty = false := by
          rw [ha]
          simpa using (hv a List.mem_cons_self).ne_nil
        have hs : Synced c'.reset F later :=
          .of_fresh ⟨by simp [In.reset], rfl, rfl, rfl, ho⟩ hrest'
        obtain ⟨c₂, done, todo', hloop, htodo, hs', hfree⟩ :=
          ih (fun i => halt (i + 1)) hs fun b hb => hv b (List.mem_cons_of_mem a hb)
        have hinline : ¬(some ReqType.multibulk = some ReqType.inline) := by simp
        have hstays : cfg.executed c'.argv = .stays := ha ▸ (hv a List.mem_cons_self).stays
        simp only [hty', hinline, decide_false, Bool.false_and, Bool.false_eq_true, if_false, hargv,
          hstays, hloop]
        refine ⟨c₂, a :: done, todo', by simp [ha], by simp [htodo], hs', fun hgo hlt => ?_⟩
        refine hfree (fun i => hgo (i + 1)) ?_
        -- The command took a byte, so that the fuel is enough for the rest.
        have hpos := List.length_pos_iff.mpr h.ne_nil
        have hlen := congrArg List.length hr
        have hlen' := congrArg List.length hrest'
        have hreset : c'.reset.rest = c'.rest := rfl
        rw [hreset]
        simp only [List.length_append] at hlen hlen'
        omega

/-- `processInputBuffer` is the loop; the buffer then starts with its rest. -/
theorem processInputBuffer_spec (halt : ℕ → Bool) (h : Synced c F todo)
    (hv : ∀ a ∈ todo, Sendable cfg a) :
    ∃ c' done todo', processInputBuffer cfg halt c = some (c', done) ∧ todo = done ++ todo' ∧
      Synced c' F todo' ∧ c'.qbPos = 0 ∧ ((∀ i, halt i = false) →
        c'.querybuf.length ≤ cfg.restMax ∧ (F = [] → todo' = [])) := by
  obtain ⟨c', done, todo', hloop, htodo, hs, hfree⟩ :=
    inputLoop_spec (c.rest.length + 1) halt h hv
  refine ⟨{ c' with querybuf := c'.rest, qbPos := 0 }, done, todo', ?_, htodo, hs.move rfl, rfl,
    fun hgo => hfree hgo (by omega)⟩
  simp [processInputBuffer, hloop]

/-- **One read**: the commands that are executed are the first ones that were sent. The client is
closed only if its buffer is over the limit. -/
theorem readQueryFromClient_spec (halt : ℕ → Bool) {s : Sds} (hpos : c.qbPos = 0)
    (h : Synced c (s ++ F) todo) (hv : ∀ a ∈ todo, Sendable cfg a) :
    ∃ c' done todo', readQueryFromClient cfg halt c (.data s) = some (c', done) ∧
      todo = done ++ todo' ∧ c'.qbPos = 0 ∧
      ((c'.closed = true ∧ done = [] ∧ c'.querybuf = c.querybuf ++ s ∧
          cfg.clientMaxQuerybufLen < c'.querybuf.length) ∨
        (Synced c' F todo' ∧ ((∀ i, halt i = false) →
          c'.querybuf.length ≤ cfg.restMax ∧ (F = [] → todo' = [])))) := by
  have hrest : c.rest = c.querybuf := by simp [In.rest, hpos]
  have hs : Synced { c with querybuf := c.querybuf ++ s } F todo := by
    refine h.move ?_
    simp [hrest, hpos]
  simp only [readQueryFromClient]
  split
  · rename_i hbig
    exact ⟨_, [], todo, rfl, rfl, hpos, .inl ⟨rfl, rfl, rfl, hbig⟩⟩
  · obtain ⟨c', done, todo', hp, htodo, hs', hpos', hfree⟩ :=
      processInputBuffer_spec halt hs hv
    exact ⟨c', done, todo', hp, htodo, hpos', .inr ⟨hs', hfree⟩⟩

/-- A closed client executes nothing. -/
theorem processInputBuffer_closed (cfg : InCfg) (halt : ℕ → Bool) (h : c.closed = true) :
    ∃ c', processInputBuffer cfg halt c = some (c', []) ∧ c'.closed = true ∧ c'.qbPos = 0 := by
  have hloop : inputLoop cfg (c.rest.length + 1) halt c = some (c, []) := by
    unfold inputLoop
    split
    · rfl
    · split
      · rfl
      · rfl
  exact ⟨{ c with querybuf := c.rest, qbPos := 0 }, by simp [processInputBuffer, hloop], h, rfl⟩

theorem readQueryFromClient_closed (cfg : InCfg) (halt : ℕ → Bool) (h : c.closed = true)
    (hpos : c.qbPos = 0) (r : ConnRead) :
    ∃ c', readQueryFromClient cfg halt c r = some (c', []) ∧ c'.closed = true ∧
      c'.qbPos = 0 := by
  cases r with
  | again => exact ⟨c, rfl, h, hpos⟩
  | lost => exact ⟨_, rfl, rfl, hpos⟩
  | data s =>
    simp only [readQueryFromClient]
    split
    · exact ⟨_, rfl, rfl, hpos⟩
    · exact processInputBuffer_closed cfg halt h

end Synced

/-! ## A stream of bytes -/

/-- The input of a client that `createClient` makes. -/
def In.new : In :=
  { querybuf := [], qbPos := 0, reqtype := none, multibulklen := 0, bulklen := none, argv := [],
    closed := false }

theorem In.Fresh.new : In.new.Fresh := ⟨by simp [In.new], rfl, rfl, rfl, rfl⟩

/-- A read from a connection that has the bytes `wire` and gives up to `k` of them: the client, the
bytes that are left, and the commands that were executed. -/
def readFrom (cfg : InCfg) (halt : ℕ → Bool) (k : ℕ) (c : In) (wire : Sds) :
    Option (In × Sds × List (List Sds)) :=
  let chunk := wire.take (min k (readlen c))
  (readQueryFromClient cfg halt c (if chunk.isEmpty then .again else .data chunk)).map fun r =>
    (r.1, wire.drop (min k (readlen c)), r.2)

/-- The reads of a connection, none of which is stopped. -/
def readAll (cfg : InCfg) : List ℕ → In → Sds → Option (In × Sds × List (List Sds))
  | [], c, wire => some (c, wire, [])
  | k :: ks, c, wire =>
    match readFrom cfg (fun _ => false) k c wire with
    | none => none
    | some (c, wire, done) => (readAll cfg ks c wire).map fun r => (r.1, r.2.1, done ++ r.2.2)

theorem readlen_le (c : In) : readlen c ≤ PROTO_IOBUF_LEN := by
  unfold readlen
  split
  · simp only
    split
    · rename_i h
      simp only [Bool.and_eq_true, decide_eq_true_eq] at h
      exact h.2.le
    · exact le_rfl
  · exact le_rfl

section Stream

variable {cfg : InCfg} {c : In} {todo : List (List Sds)} {wire F : Sds}

/-- One read from a connection on which `F` follows what it has. -/
theorem readFrom_spec (halt : ℕ → Bool) (k : ℕ) (hpos : c.qbPos = 0)
    (h : Synced c (wire ++ F) todo) (hv : ∀ a ∈ todo, Sendable cfg a) :
    ∃ c' wire' done todo', readFrom cfg halt k c wire = some (c', wire', done) ∧
      todo = done ++ todo' ∧ c'.qbPos = 0 ∧
      ((c'.closed = true ∧ cfg.clientMaxQuerybufLen < c.querybuf.length + PROTO_IOBUF_LEN) ∨
        (Synced c' (wire' ++ F) todo' ∧ ((∀ i, halt i = false) → c.querybuf.length ≤ cfg.restMax →
          c'.querybuf.length ≤ cfg.restMax ∧
            (wire.take (min k (readlen c)) ≠ [] → wire' ++ F = [] → todo' = [])))) := by
  unfold readFrom
  set j := min k (readlen c) with hj
  have hsplit : wire ++ F = wire.take j ++ (wire.drop j ++ F) := by
    rw [← List.append_assoc, List.take_append_drop]
  simp only
  by_cases hnil : wire.take j = []
  · have hwire : wire.drop j ++ F = wire ++ F := by rw [hsplit, hnil, List.nil_append]
    rw [if_pos (by simp [hnil])]
    refine ⟨c, wire.drop j, [], todo, rfl, rfl, hpos, .inr ⟨by rwa [hwire], fun _ hle =>
      ⟨hle, fun hne => absurd hnil hne⟩⟩⟩
  · rw [if_neg (by simpa using hnil)]
    rw [hsplit] at h
    obtain ⟨c', done, todo', hread, htodo, hpos', hres⟩ :=
      readQueryFromClient_spec halt hpos h hv
    refine ⟨c', wire.drop j, done, todo', by rw [hread]; rfl, htodo, hpos', ?_⟩
    rcases hres with ⟨hclosed, -, hq, hbig⟩ | ⟨hs, hfree⟩
    · refine .inl ⟨hclosed, lt_of_lt_of_le hbig ?_⟩
      have hlen : (wire.take j).length ≤ j := List.length_take_le ..
      have hmax : j ≤ PROTO_IOBUF_LEN := (min_le_right _ _).trans (readlen_le c)
      rw [hq, List.length_append]
      omega
    · exact .inr ⟨hs, fun hgo _ => ⟨(hfree hgo).1, fun _ => (hfree hgo).2⟩⟩

/-- The run lemma of `readFrom_spec`, for reads that are not stopped. While bytes are left, commands
may be as well. -/
theorem readAll_spec (hlim : cfg.restMax + PROTO_IOBUF_LEN ≤ cfg.clientMaxQuerybufLen)
    (ks : List ℕ) (hpos : c.qbPos = 0) (hle : c.querybuf.length ≤ cfg.restMax)
    (h : Synced c wire todo) (hv : ∀ a ∈ todo, Sendable cfg a) (hend : wire = [] → todo = []) :
    ∃ c' wire' done todo', readAll cfg ks c wire = some (c', wire', done) ∧
      todo = done ++ todo' ∧ c'.closed = false ∧ c'.querybuf.length ≤ cfg.restMax ∧
      (wire' = [] → todo' = []) := by
  induction ks generalizing c wire todo with
  | nil => exact ⟨c, wire, [], todo, rfl, rfl, h.opened, hle, hend⟩
  | cons k ks ih =>
    have h' : Synced c (wire ++ []) todo := by rwa [List.append_nil]
    obtain ⟨c₁, wire₁, done, todo₁, hread, rfl, hpos₁, hres⟩ :=
      readFrom_spec (fun _ => false) k hpos h' hv
    rcases hres with ⟨-, hbig⟩ | ⟨hs, hfree⟩
    · exact absurd hbig (by omega)
    · obtain ⟨hle₁, hdone⟩ := hfree (fun _ => rfl) hle
      rw [List.append_nil] at hs hdone
      have hend₁ : wire₁ = [] → todo₁ = [] := by
        intro hw
        by_cases hnil : wire.take (min k (readlen c)) = []
        · -- Nothing was read, and nothing is left: there was nothing.
          have hwire : wire₁ = wire.drop (min k (readlen c)) := by
            simp only [readFrom, Option.map_eq_some_iff] at hread
            obtain ⟨_, -, heq⟩ := hread
            exact (congrArg (fun p => p.2.1) heq).symm
          have hempty : wire = [] := by
            rw [← List.take_append_drop (min k (readlen c)) wire, hnil, ← hwire, hw,
              List.append_nil]
          exact (List.append_eq_nil_iff.mp (hend hempty)).2
        · exact hdone hnil hw
      obtain ⟨c', wire', done', todo', hrun, rfl, ho, hle', hend'⟩ :=
        ih hpos₁ hle₁ hs (fun a ha => hv a (List.mem_append_right done ha)) hend₁
      exact ⟨c', wire', done ++ done', todo', by simp only [readAll, hread, hrun, Option.map_some],
        by simp, ho, hle', hend'⟩

end Stream

/-- **A stream of commands is read as it was written**: however a connection cuts the bytes of the
commands `cmds`, none of which closes or blocks its client, into pieces, what a new client that is
not paused executes is a first part of `cmds`, and all of them when all bytes were read. No
assertion fails and nothing is refused, and if the limit of the buffer leaves room for the longest
argument and one read, the client is never closed and keeps no more than a piece of a command. -/
theorem input_delivers (cfg : InCfg) (cmds : List (List Sds)) (ks : List ℕ)
    (hcmds : ∀ a ∈ cmds, Sendable cfg a)
    (hlim : cfg.restMax + PROTO_IOBUF_LEN ≤ cfg.clientMaxQuerybufLen) :
    ∃ c wire done, readAll cfg ks In.new (cmds.flatMap respCommand) = some (c, wire, done) ∧
      done <+: cmds ∧ (wire = [] → done = cmds) ∧ c.closed = false ∧
      c.querybuf.length ≤ cfg.restMax := by
  have hs : Synced In.new (cmds.flatMap respCommand) cmds := .of_fresh .new rfl
  have hend : cmds.flatMap respCommand = [] → cmds = [] := hs.eq_nil rfl
  obtain ⟨c, wire, done, todo, hrun, rfl, ho, hle, hdone⟩ :=
    readAll_spec hlim ks rfl (by simp [In.new]) hs hcmds hend
  exact ⟨c, wire, done, hrun, List.prefix_append done todo, fun hw => by simp [hdone hw], ho, hle⟩

/-- The limits of the default configuration. -/
def inCfgDefault : InCfg where
  protoMaxBulkLen := 512 * 1024 * 1024
  clientMaxQuerybufLen := 1024 * 1024 * 1024
  gopherEnabled := false
  sdssplitargs _ := none
  executed a := if strCaseEq (a.headD []) "quit" then .closes else .stays
  protoMaxBulkLen_lt := by decide

/-- The hypotheses hold of two commands, with the default limits; the connection cuts the first
one. -/
theorem input_delivers_cut :
    let cmds := [["rwfzadd".toList, ['q'], ['a'], ['5']], ["rwfzrem".toList, ['q'], ['a']]]
    ∃ c wire done, readAll inCfgDefault [1, 12, 7, 400] In.new (cmds.flatMap respCommand) =
        some (c, wire, done) ∧
      done <+: cmds ∧ (wire = [] → done = cmds) ∧ c.closed = false ∧
      c.querybuf.length ≤ inCfgDefault.restMax :=
  input_delivers inCfgDefault _ _
    (by
      intro a ha
      simp only [List.mem_cons, List.not_mem_nil, or_false] at ha
      rcases ha with rfl | rfl
      · exact ⟨by decide, by decide, by decide, by decide⟩
      · exact ⟨by decide, by decide, by decide, by decide⟩)
    (by decide)

end CrdtRedis

import CrdtRedis.Crdt
import CrdtRedis.Text
import Mathlib.Algebra.Ring.Parity
import Mathlib.Data.List.Count
import Mathlib.Data.List.Nodup
import Mathlib.Logic.Function.Basic
import Mathlib.Tactic.Ring

/-!
# `REPLICATE` (`p2p.c`)

The command by which a server learns the number of replicas and its own number, and by which it
connects to the others. `replicateCommand` models it with every access to `argv`: `argv` is what the
memory holds there, the arguments are the first `argc` entries. Variables that a failed
`getLongFromObjectOrReply` leaves uninitialised hold some value (`P2pEnv`).

* `replicate_reads_iff`: which argument vectors `REPLICATE` reads without leaving them.
* `automat_count`: `AUTOMAT` connects server `k` to the servers below `k / 2`, not to those below
  `k`, because the loop over the addresses counts arguments and not servers.
* `automat_mesh_iff`: so the servers form a full mesh if there are at most two of them.
-/

namespace CrdtRedis

/-! ## Numbers in arguments -/

/-- `ULLONG_MAX`. -/
def ullongMax : ℕ := 2 ^ 64 - 1

/-- The value of a digit. -/
def digitVal (c : Char) : ℕ := c.toNat - '0'.toNat

/-- The loop of `string2ll` over the digits after the first. -/
def readDigits (v : ℕ) : Sds → Option ℕ
  | [] => some v
  | c :: cs =>
    if c.isDigit then
      if ullongMax / 10 < v then none
      else if ullongMax - digitVal c < v * 10 then none
      else readDigits (v * 10 + digitVal c) cs
    else none

/-- `string2ll`, after the sign. -/
def readNumber : Sds → Option ℕ
  | [] => none
  | c :: cs => if '1' ≤ c ∧ c ≤ '9' then readDigits (digitVal c) cs else none

/-- `string2ll`. -/
def string2ll (s : Sds) : Option ℤ :=
  if s = ['0'] then some 0
  else match s with
    | '-' :: p => (readNumber p).bind fun v => if 2 ^ 63 < v then none else some (-v)
    | p => (readNumber p).bind fun v => if 2 ^ 63 - 1 < v then none else some v

/-- `(int)`, of a `long`. -/
def toCInt (v : ℤ) : ℤ := v.bmod (2 ^ 32)

/-- `strcasecmp(a, b) == 0`. -/
def strCaseEq (a : Sds) (b : String) : Bool := strEq (sdstolower a) (sdstolower b.toList)

theorem readDigits_ofDigitChars (cs : Sds) (v : ℕ) (hd : ∀ c ∈ cs, c.isDigit)
    (hmax : Nat.ofDigitChars 10 cs v ≤ ullongMax) :
    readDigits v cs = some (Nat.ofDigitChars 10 cs v) := by
  induction cs generalizing v with
  | nil => rfl
  | cons c cs ih =>
    rw [Nat.ofDigitChars_cons] at hmax ⊢
    -- the value only grows, so no step before the last overflows
    have hmono : 10 * v + digitVal c ≤ ullongMax := by
      have hle : ∀ (l : Sds) (w : ℕ), w ≤ Nat.ofDigitChars 10 l w := by
        intro l
        induction l with
        | nil => intro w; exact le_refl w
        | cons d l ihl =>
          intro w
          rw [Nat.ofDigitChars_cons]
          refine le_trans ?_ (ihl _)
          omega
      exact le_trans (hle cs _) hmax
    have hdig : c.isDigit = true := hd c (List.mem_cons_self ..)
    have hstep := ih (10 * v + digitVal c) (fun d hm => hd d (List.mem_cons_of_mem _ hm)) hmax
    unfold readDigits
    rw [if_pos hdig, if_neg (by omega), if_neg (by omega), Nat.mul_comm v 10]
    exact hstep

/-- The text of a number other than 0 starts with a digit other than 0. -/
theorem toDigits_head {n : ℕ} (hn : n ≠ 0) :
    ∃ c cs, Nat.toDigits 10 n = c :: cs ∧ '1' ≤ c ∧ c ≤ '9' := by
  induction n using Nat.strongRecOn with
  | ind n ih =>
    rw [Nat.toDigits_eq_if (by decide)]
    by_cases hlt : n < 10
    · have hdigit : ∀ m : Fin 10, m.val ≠ 0 →
          '1' ≤ Nat.digitChar m.val ∧ Nat.digitChar m.val ≤ '9' := by decide
      rw [if_pos hlt]
      exact ⟨_, [], rfl, hdigit ⟨n, hlt⟩ hn⟩
    · obtain ⟨c, cs, he, hc⟩ := ih (n / 10) (by omega) (by omega)
      rw [if_neg hlt, he]
      exact ⟨c, cs ++ [Nat.digitChar (n % 10)], rfl, hc⟩

theorem readNumber_numText {n : ℕ} (hn : n ≠ 0) (hmax : n ≤ ullongMax) :
    readNumber (numText n) = some n := by
  obtain ⟨c, cs, he, hc⟩ := toDigits_head hn
  have hdig : ∀ d ∈ c :: cs, d.isDigit = true := by
    intro d hd
    rw [← he] at hd
    exact Nat.isDigit_of_mem_toDigits (by decide) (by decide) hd
  have hval : Nat.ofDigitChars 10 cs (digitVal c) = n := by
    have h := Nat.ofDigitChars_toDigits (b := 10) (n := n) (by decide) (by decide)
    rw [he, Nat.ofDigitChars_cons, Nat.mul_zero, Nat.zero_add] at h
    exact h
  unfold numText
  rw [he]
  change (if '1' ≤ c ∧ c ≤ '9' then readDigits (digitVal c) cs else none) = some n
  rw [if_pos hc, readDigits_ofDigitChars cs _ (fun d hd => hdig d (List.mem_cons_of_mem _ hd))
    (by rw [hval]; exact hmax), hval]

/-- An argument that is the text of a number reads as that number. -/
theorem string2ll_numText {n : ℕ} (hn : n < 2 ^ 63) : string2ll (numText n) = some (n : ℤ) := by
  by_cases h0 : n = 0
  · subst h0; decide
  obtain ⟨c, cs, he, hc⟩ := toDigits_head h0
  have hread := readNumber_numText h0 (by unfold ullongMax; omega)
  have hne : numText n ≠ ['0'] := by
    intro h
    unfold numText at h
    rw [he] at h
    cases h
    exact absurd hc.1 (by decide)
  have hminus : c ≠ '-' := by
    rintro rfl
    exact absurd hc.1 (by decide)
  unfold string2ll
  rw [if_neg hne]
  split
  · next p hp =>
    unfold numText at hp
    rw [he] at hp
    cases hp
    exact absurd rfl hminus
  · rw [hread, Option.bind_some, if_neg (by omega)]

theorem toCInt_of_lt {n : ℕ} (hn : n < 2 ^ 31) : toCInt n = n := by
  unfold toCInt
  exact Int.bmod_eq_of_le (by omega) (by omega)

theorem toLower_of_isDigit {c : Char} (h : c.isDigit = true) : c.toLower = c := by
  unfold Char.isDigit at h
  unfold Char.toLower
  split
  · next hup =>
    have h9 : '9'.val.toNat = 57 := rfl
    have hA : 'A'.val.toNat = 65 := rfl
    simp only [ge_iff_le, UInt32.le_iff_toNat_le, Bool.and_eq_true, decide_eq_true_eq] at h hup
    omega
  · rfl

/-- The text of a number is no word. -/
theorem strCaseEq_numText (n : ℕ) {b : String} {c : Char} (hc : c.isDigit = false)
    (hb : c ∈ (sdstolower b.toList).takeWhile (· ≠ '\x00')) : strCaseEq (numText n) b = false := by
  rw [← Bool.not_eq_true]
  intro h
  unfold strCaseEq strEq at h
  rw [decide_eq_true_eq] at h
  rw [← h] at hb
  have hmem : c ∈ sdstolower (numText n) := List.takeWhile_subset _ hb
  obtain ⟨d, hd, hlow⟩ := List.mem_map.mp hmem
  have hdig : d.isDigit = true := Nat.isDigit_of_mem_toDigits (by decide) (by decide) hd
  rw [toLower_of_isDigit hdig] at hlow
  rw [hlow, hc] at hdig
  cases hdig

/-! ## The command -/

/-- The flags of a client that matter here. -/
structure PeerFlags where
  /-- `CLIENT_REPLICA`. -/
  replica : Bool
  /-- `CLIENT_PROTECTED`. -/
  inUse : Bool
  /-- `CLIENT_CLOSE_ASAP`. -/
  closeAsap : Bool
  deriving DecidableEq

/-- The part of the server that `p2p.c` uses, with the static variable `exp_local`. Clients are
numbers. -/
structure P2p where
  clusterEnabled : Bool
  p2pCount : ℤ
  p2pId : ℤ
  expLocal : Bool
  replicas : List ℕ
  flags : ℕ → PeerFlags

/-- The server as it starts. -/
def P2p.start : P2p := ⟨false, 0, -1, false, [], fun _ => ⟨false, false, false⟩⟩

/-- What a call of `replicateCommand` depends on besides its arguments: the values of the variables
that it does not initialise, and which calls of `connConnect` succeed. -/
structure P2pEnv where
  size : ℤ
  id : ℤ
  port : ℤ
  connect : Sds → ℤ → Bool

/-- The replies of `REPLICATE`. -/
inductive ReplicateReply where
  /-- "REPLICATE not allowed in cluster mode." -/
  | clusterMode
  /-- "invalid replica size." -/
  | invalidSize
  /-- "invalid replica id." -/
  | invalidId
  /-- "invalid port number." -/
  | invalidPort
  /-- "Something wrong connecting replicas." -/
  | connectError
  | ok
  deriving DecidableEq

/-- What `REPLICATE` does besides its change of the server: the index of each access to `argv`, the
replies and the connections that it opens. -/
structure Replicated where
  reads : List ℕ
  replies : List ReplicateReply
  conns : List (Sds × ℤ)

/-- `getLongFromObjectOrReply`, of a variable that holds `uninit`. -/
def getLongOrReply (uninit : ℤ) (err : ReplicateReply) (arg : Sds) : ℤ × List ReplicateReply :=
  match string2ll arg with
  | some v => (v, [])
  | none => (uninit, [err])

/-- The values of `i` in `for (i = a; i < b; i += 2)`. -/
def stepsOfTwo (a b : ℕ) : List ℕ := (List.range ((b - a + 1) / 2)).map (a + 2 * ·)

/-- The loops over the addresses: `i` is the index of an address, its port follows it. -/
def connectLoop (env : P2pEnv) (argv : ℕ → Sds) : List ℕ → Replicated
  | [] => ⟨[], [.ok], []⟩
  | i :: is =>
    let port := getLongOrReply env.port .invalidPort (argv (i + 1))
    if env.connect (argv i) (toCInt port.1) then
      let r := connectLoop env argv is
      -- the port is read once more for the log
      ⟨[i + 1, i, i + 1] ++ r.reads, port.2 ++ r.replies, (argv i, toCInt port.1) :: r.conns⟩
    else ⟨[i + 1, i], port.2 ++ [.connectError], []⟩

/-- `REPLICATION_MODE`. -/
def P2p.replicationMode (s : P2p) : Bool := !s.replicas.isEmpty || s.p2pCount != 0

/-- `REPLICATE REPLICA HANDSHAKE`, by which a server announces itself to the one it connected to. -/
def isHandshake (argv : ℕ → Sds) : Bool :=
  strCaseEq (argv 1) "replica" && strCaseEq (argv 2) "handshake"

/-- `replicateCommand`, of client `c`. -/
def replicateCommand (env : P2pEnv) (c : ℕ) (argc : ℕ) (argv : ℕ → Sds) (s : P2p) :
    P2p × Replicated :=
  if s.clusterEnabled then (s, ⟨[], [.clusterMode], []⟩)
  else if isHandshake argv then
    ({ s with
        flags := Function.update s.flags c { s.flags c with replica := true }
        replicas := s.replicas ++ [c] },
      ⟨[1, 2], [], []⟩)
  else
    let first := if strCaseEq (argv 1) "replica" then [1, 2] else [1]
    let size := getLongOrReply env.size .invalidSize (argv 1)
    let id := getLongOrReply env.id .invalidId (argv 2)
    let s := { s with p2pCount := toCInt size.1, p2pId := toCInt id.1 }
    -- `argv[3]` is read for any `argc`
    if strCaseEq (argv 3) "automat" then
      let r := connectLoop env argv ((stepsOfTwo 0 s.p2pId.toNat).map (4 + ·))
      (s, ⟨first ++ [1, 2, 3] ++ r.reads, size.2 ++ id.2 ++ r.replies, r.conns⟩)
    else
      let s := if 3 < argc ∧ strCaseEq (argv 3) "exp_local" then { s with expLocal := true } else s
      let r := connectLoop env argv (stepsOfTwo (3 + s.expLocal.toNat) argc)
      (s, ⟨first ++ [1, 2, 3] ++ (if 3 < argc then [3] else []) ++ r.reads,
        size.2 ++ id.2 ++ r.replies, r.conns⟩)

/-- What `REPLICATE` does to the server: nothing, it adds the client to the replicas, or it sets the
number of replicas and its own. -/
theorem replicate_cases (env : P2pEnv) (c argc : ℕ) (argv : ℕ → Sds) (s : P2p) :
    (s.clusterEnabled = true ∧ (replicateCommand env c argc argv s).1 = s) ∨
    (s.clusterEnabled = false ∧ isHandshake argv = true ∧
      (replicateCommand env c argc argv s).1 = { s with
        flags := Function.update s.flags c { s.flags c with replica := true }
        replicas := s.replicas ++ [c] }) ∨
    (s.clusterEnabled = false ∧ isHandshake argv = false ∧ ∃ e,
      (replicateCommand env c argc argv s).1 = { s with
        p2pCount := toCInt (getLongOrReply env.size .invalidSize (argv 1)).1
        p2pId := toCInt (getLongOrReply env.id .invalidId (argv 2)).1
        expLocal := e }) := by
  unfold replicateCommand
  cases hcl : s.clusterEnabled with
  | true => exact .inl ⟨rfl, rfl⟩
  | false =>
    cases hhs : isHandshake argv with
    | true => exact .inr (.inl ⟨rfl, rfl, by simp only [Bool.false_eq_true, ↓reduceIte]⟩)
    | false =>
      refine .inr (.inr ⟨rfl, rfl, ?_⟩)
      simp only [Bool.false_eq_true, ↓reduceIte]
      by_cases haut : strCaseEq (argv 3) "automat" = true
      · rw [if_pos haut]
        exact ⟨s.expLocal, rfl⟩
      · rw [if_neg haut]
        split
        · exact ⟨true, rfl⟩
        · exact ⟨s.expLocal, rfl⟩

/-! ## The accesses to `argv` -/

theorem mem_stepsOfTwo {a b i : ℕ} : i ∈ stepsOfTwo a b ↔ ∃ j, i = a + 2 * j ∧ i < b := by
  unfold stepsOfTwo
  rw [List.mem_map]
  constructor
  · rintro ⟨j, hj, rfl⟩
    rw [List.mem_range] at hj
    exact ⟨j, rfl, by omega⟩
  · rintro ⟨j, rfl, hb⟩
    exact ⟨j, List.mem_range.mpr (by omega), rfl⟩

/-- A loop reads an address only together with its port. -/
theorem connectLoop_reads (env : P2pEnv) (argv : ℕ → Sds) (is : List ℕ) {k : ℕ}
    (hk : k ∈ (connectLoop env argv is).reads) : ∃ i ∈ is, k ≤ i + 1 := by
  induction is with
  | nil => exact absurd hk (List.not_mem_nil)
  | cons i is ih =>
    by_cases hc : env.connect (argv i)
        (toCInt (getLongOrReply env.port .invalidPort (argv (i + 1))).1) = true
    · rw [connectLoop, if_pos hc] at hk
      rcases List.mem_append.mp hk with hk | hk
      · refine ⟨i, List.mem_cons_self .., ?_⟩
        simp only [List.mem_cons, List.not_mem_nil, or_false] at hk
        omega
      · obtain ⟨j, hj, hle⟩ := ih hk
        exact ⟨j, List.mem_cons_of_mem _ hj, hle⟩
    · rw [connectLoop, if_neg hc] at hk
      refine ⟨i, List.mem_cons_self .., ?_⟩
      simp only [List.mem_cons, List.not_mem_nil, or_false] at hk
      omega

/-- If every connection succeeds, a loop reads every address and every port. -/
theorem mem_connectLoop_reads {env : P2pEnv} {argv : ℕ → Sds} {is : List ℕ} {i : ℕ}
    (hall : ∀ ip port, env.connect ip port = true) (hi : i ∈ is) :
    i + 1 ∈ (connectLoop env argv is).reads := by
  induction is with
  | nil => exact absurd hi (List.not_mem_nil)
  | cons j is ih =>
    unfold connectLoop
    rw [if_pos (hall _ _)]
    rcases List.mem_cons.mp hi with rfl | hi
    · exact List.mem_append_left _ (List.mem_cons_self ..)
    · exact List.mem_append_right _ (ih hi)

/-- A loop stays below `argc` for every outcome of the connections if each of its addresses has a
port. -/
theorem connectLoop_reads_iff (env : P2pEnv) (argv : ℕ → Sds) (is : List ℕ) (argc : ℕ) :
    (∀ connect, ∀ k ∈ (connectLoop { env with connect := connect } argv is).reads, k < argc) ↔
      ∀ i ∈ is, i + 1 < argc := by
  constructor
  · intro h i hi
    exact h (fun _ _ => true) (i + 1) (mem_connectLoop_reads (fun _ _ => rfl) hi)
  · intro h connect k hk
    obtain ⟨i, hi, hle⟩ := connectLoop_reads _ argv is hk
    exact lt_of_le_of_lt hle (h i hi)

/-- The arguments that `REPLICATE` does not leave. With `AUTOMAT` there is an address and a port for
every second number below the server's own; without it the addresses and ports that follow are
pairs. Only the loops and a missing fourth argument can leave `argv`. -/
def ReplicateFits (env : P2pEnv) (argc : ℕ) (argv : ℕ → Sds) (s : P2p) : Prop :=
  s.clusterEnabled = true ∨
  isHandshake argv = true ∨
  (3 < argc ∧
    if strCaseEq (argv 3) "automat" then
      4 + 2 * (((toCInt (getLongOrReply env.id .invalidId (argv 2)).1).toNat + 1) / 2) ≤ argc
    else
      Even (argc - 3 - (s.expLocal || strCaseEq (argv 3) "exp_local").toNat))

theorem automat_indices_iff (m argc : ℕ) (h : 3 < argc) :
    (∀ i ∈ (stepsOfTwo 0 m).map (4 + ·), i + 1 < argc) ↔ 4 + 2 * ((m + 1) / 2) ≤ argc := by
  constructor
  · intro hall
    by_cases h0 : m = 0
    · subst h0; omega
    -- the last address of the loop
    have hlast : 2 * ((m - 1) / 2) ∈ stepsOfTwo 0 m := mem_stepsOfTwo.mpr ⟨(m - 1) / 2, by omega⟩
    have := hall _ (List.mem_map_of_mem hlast)
    omega
  · intro hle i hi
    obtain ⟨j, hj, rfl⟩ := List.mem_map.mp hi
    obtain ⟨k, rfl, hlt⟩ := mem_stepsOfTwo.mp hj
    omega

theorem address_indices_iff (a argc : ℕ) (h : a ≤ argc) :
    (∀ i ∈ stepsOfTwo a argc, i + 1 < argc) ↔ Even (argc - a) := by
  rw [Nat.even_iff]
  constructor
  · intro hall
    by_contra hodd
    have hlast : argc - 1 ∈ stepsOfTwo a argc :=
      mem_stepsOfTwo.mpr ⟨(argc - 1 - a) / 2, by omega⟩
    have := hall _ hlast
    omega
  · intro heven i hi
    obtain ⟨k, rfl, hlt⟩ := mem_stepsOfTwo.mp hi
    omega

section Reads

variable {env : P2pEnv} {c argc : ℕ} {argv : ℕ → Sds} {s : P2p}

/-- The indices of the addresses that `REPLICATE` goes through. -/
def addressIndices (env : P2pEnv) (argc : ℕ) (argv : ℕ → Sds) (s : P2p) : List ℕ :=
  if strCaseEq (argv 3) "automat" then
    (stepsOfTwo 0 (toCInt (getLongOrReply env.id .invalidId (argv 2)).1).toNat).map (4 + ·)
  else stepsOfTwo (3 + (s.expLocal || strCaseEq (argv 3) "exp_local").toNat) argc

theorem replicate_reads_three (hcl : s.clusterEnabled = false)
    (hhs : isHandshake argv = false) :
    3 ∈ (replicateCommand env c argc argv s).2.reads := by
  unfold replicateCommand
  simp only [hcl, hhs, Bool.false_eq_true, ↓reduceIte]
  split <;> simp

theorem replicate_reads (hcl : s.clusterEnabled = false)
    (hhs : isHandshake argv = false)
    (h3 : 3 < argc) (k : ℕ) :
    k ∈ (replicateCommand env c argc argv s).2.reads ↔
      k ∈ [1, 2, 3] ∨ k ∈ (connectLoop env argv (addressIndices env argc argv s)).reads := by
  have hfirst : k ∈ (if strCaseEq (argv 1) "replica" then [1, 2] else [1]) → k ∈ [1, 2, 3] := by
    split <;> simp <;> omega
  have hthree : k ∈ [3] → k ∈ [1, 2, 3] := by
    simp only [List.mem_cons, List.not_mem_nil, or_false]
    omega
  unfold replicateCommand addressIndices
  by_cases haut : strCaseEq (argv 3) "automat" = true
  · simp only [hcl, hhs, haut, Bool.false_eq_true, ↓reduceIte, List.mem_append]
    rw [or_iff_right_of_imp hfirst]
  · by_cases hexp : strCaseEq (argv 3) "exp_local" = true
    · simp only [hcl, hhs, haut, hexp, h3, Bool.false_eq_true, ↓reduceIte, List.mem_append,
        and_self, Bool.or_true]
      rw [or_iff_right_of_imp hfirst, or_iff_left_of_imp hthree]
    · simp only [hcl, hhs, haut, hexp, h3, Bool.false_eq_true, ↓reduceIte, List.mem_append,
        and_false, Bool.or_false]
      rw [or_iff_right_of_imp hfirst, or_iff_left_of_imp hthree]

/-- `REPLICATE` reads only its arguments, whatever the connections do, if and only if the arguments
fit. -/
theorem replicate_reads_iff (env : P2pEnv) (c argc : ℕ) (argv : ℕ → Sds) (s : P2p)
    (harity : 3 ≤ argc) :
    (∀ connect, ∀ k ∈ (replicateCommand { env with connect := connect } c argc argv s).2.reads,
      k < argc) ↔ ReplicateFits env argc argv s := by
  unfold ReplicateFits
  by_cases hcl : s.clusterEnabled = true
  · simp [replicateCommand, hcl]
  by_cases hhs : isHandshake argv = true
  · simp only [replicateCommand, hcl, hhs, Bool.false_eq_true, ↓reduceIte, true_or, or_true,
      iff_true, List.mem_cons, List.not_mem_nil, or_false]
    intro _ k hk
    omega
  rw [Bool.not_eq_true] at hcl hhs
  simp only [hcl, hhs, Bool.false_eq_true, false_or]
  by_cases h3 : 3 < argc
  · have hiff : (∀ connect, ∀ k ∈
          (replicateCommand { env with connect := connect } c argc argv s).2.reads, k < argc) ↔
        ∀ i ∈ addressIndices env argc argv s, i + 1 < argc := by
      rw [← connectLoop_reads_iff env argv (addressIndices env argc argv s) argc]
      refine forall_congr' fun connect => ?_
      simp only [replicate_reads hcl hhs h3]
      refine ⟨fun h k hk => h k (.inr hk), fun h k hk => ?_⟩
      rcases hk with hk | hk
      · simp only [List.mem_cons, List.not_mem_nil, or_false] at hk
        omega
      · exact h k hk
    rw [hiff]
    simp only [h3, true_and]
    unfold addressIndices
    split
    · exact automat_indices_iff _ argc h3
    · rw [address_indices_iff _ argc (by cases s.expLocal || strCaseEq (argv 3) "exp_local" <;>
        simp <;> omega), Nat.sub_add_eq]
  · -- the fourth argument is missing and is read nevertheless
    simp only [h3, false_and, iff_false, not_forall]
    exact ⟨env.connect, 3, replicate_reads_three hcl hhs, by omega⟩

end Reads

/-- Texts as an argument vector. -/
def argvOf (args : List String) (i : ℕ) : Sds := (args.getD i "").toList

/-- `REPLICATE 3 2 AUTOMAT` with three addresses reads the first of them. -/
theorem replicate_reads_automat :
    3 ≤ 10 ∧ ∀ k ∈ (replicateCommand ⟨0, 0, 0, fun _ _ => true⟩ 0 10
      (argvOf ["REPLICATE", "3", "2", "AUTOMAT", "172.24.81.132", "6379", "172.24.81.136", "6379",
        "172.24.81.137", "6379"]) .start).2.reads, k < 10 :=
  ⟨by decide, (replicate_reads_iff ⟨0, 0, 0, fun _ _ => true⟩ 0 10 _ .start (by decide)).mpr
    (.inr (.inr ⟨by decide, by rw [if_pos (by decide)]; decide⟩)) _⟩

/-- `REPLICATE 5 0`, as the first server is set up: the fourth argument is read although there are
three. -/
theorem replicate_leaves_arguments :
    ¬ ∀ k ∈ (replicateCommand ⟨0, 0, 0, fun _ _ => true⟩ 0 3
      (argvOf ["REPLICATE", "5", "0"]) .start).2.reads, k < 3 :=
  fun h => absurd (h 3 (replicate_reads_three rfl (by decide))) (by decide)

/-! ## The links that `AUTOMAT` makes -/

/-- `REPLICATE N k AUTOMAT` with the addresses and ports of the servers. -/
def automatArgv (k : ℕ) (addrs : List (Sds × ℕ)) : List Sds :=
  ["REPLICATE".toList, numText addrs.length, numText k, "AUTOMAT".toList] ++
    addrs.flatMap fun a => [a.1, numText a.2]

/-- The connections of server `k`, all of which succeed. -/
def automatConns (env : P2pEnv) (s : P2p) (k : ℕ) (addrs : List (Sds × ℕ)) : List (Sds × ℤ) :=
  (replicateCommand { env with connect := fun _ _ => true } 0 (automatArgv k addrs).length
    (fun i => (automatArgv k addrs).getD i []) s).2.conns

/-- The server at an address. -/
def serverAt (addrs : List (Sds × ℕ)) (a : Sds × ℤ) : ℕ :=
  addrs.findIdx fun b => (b.1, (b.2 : ℤ)) = a

/-- The links when each server, in state `s k`, runs its command: who connects, and to whom. -/
def automatLinks (env : ℕ → P2pEnv) (s : ℕ → P2p) (addrs : List (Sds × ℕ)) : List (ℕ × ℕ) :=
  (List.range addrs.length).flatMap fun k =>
    (automatConns (env k) (s k) k addrs).map fun a => (k, serverAt addrs a)

/-- Each two servers have exactly one link, and no server connects to itself. -/
def FullMesh (n : ℕ) (links : List (ℕ × ℕ)) : Prop :=
  (∀ a b, a < b → b < n → links.count (a, b) + links.count (b, a) = 1) ∧ ∀ a, (a, a) ∉ links

theorem getD_flatMap_pair {α β : Type} (f g : α → β) (d : β) (l : List α) {j : ℕ}
    (hj : j < l.length) :
    (l.flatMap fun a => [f a, g a]).getD (2 * j) d = f l[j] ∧
      (l.flatMap fun a => [f a, g a]).getD (2 * j + 1) d = g l[j] := by
  induction l generalizing j with
  | nil => exact absurd hj (Nat.not_lt_zero j)
  | cons a l ih =>
    cases j with
    | zero => exact ⟨rfl, rfl⟩
    | succ j => exact ih (Nat.lt_of_succ_lt_succ hj)

theorem automatArgv_addr (k : ℕ) (addrs : List (Sds × ℕ)) {j : ℕ} (hj : j < addrs.length) :
    (automatArgv k addrs).getD (4 + 2 * j) [] = addrs[j].1 ∧
      (automatArgv k addrs).getD (4 + 2 * j + 1) [] = numText addrs[j].2 := by
  have hpair := getD_flatMap_pair (fun a : Sds × ℕ => a.1) (fun a => numText a.2) [] addrs hj
  rw [Nat.add_assoc 4, Nat.add_comm 4, Nat.add_comm 4]
  exact hpair

theorem serverAt_getElem {addrs : List (Sds × ℕ)} (hnd : addrs.Nodup) {j : ℕ}
    (hj : j < addrs.length) : serverAt addrs (addrs[j].1, (addrs[j].2 : ℤ)) = j := by
  unfold serverAt
  rw [List.findIdx_eq hj]
  refine ⟨by simp, ?_⟩
  intro i hi
  have hne : addrs[i] ≠ addrs[j] := by
    intro he
    exact absurd ((List.Nodup.getElem_inj_iff hnd).mp he) (by omega)
  rw [decide_eq_false_iff_not]
  intro he
  simp only [Prod.mk.injEq, Nat.cast_inj] at he
  exact hne (Prod.ext he.1 he.2)

/-- The loop over the addresses `js` connects to the servers `js`. -/
theorem connectLoop_servers (env : P2pEnv) (argv : ℕ → Sds) {addrs : List (Sds × ℕ)}
    (js : List ℕ) (hnd : addrs.Nodup) (hport : ∀ a ∈ addrs, a.2 < 2 ^ 31)
    (hall : ∀ ip port, env.connect ip port = true) (hjs : ∀ j ∈ js, j < addrs.length)
    (hargv : ∀ j (hj : j < addrs.length), argv (4 + 2 * j) = addrs[j].1 ∧
      argv (4 + 2 * j + 1) = numText addrs[j].2) :
    (connectLoop env argv (js.map (4 + 2 * ·))).conns.map (serverAt addrs) = js := by
  induction js with
  | nil => rfl
  | cons j js ih =>
    have hj := hjs j (List.mem_cons_self ..)
    have hlt : addrs[j].2 < 2 ^ 31 := hport _ (List.getElem_mem hj)
    have hnum : toCInt (getLongOrReply env.port .invalidPort (numText addrs[j].2)).1
        = (addrs[j].2 : ℤ) := by
      unfold getLongOrReply
      rw [string2ll_numText (by omega)]
      exact toCInt_of_lt hlt
    rw [List.map_cons, connectLoop, if_pos (hall _ _), (hargv j hj).1, (hargv j hj).2, hnum]
    simp only [List.map_cons, serverAt_getElem hnd hj,
      ih (fun i hi => hjs i (List.mem_cons_of_mem _ hi))]

/-- Server `k` connects to the servers below `k / 2`. -/
theorem automat_servers {env : P2pEnv} {s : P2p} {addrs : List (Sds × ℕ)} {k : ℕ}
    (hcl : s.clusterEnabled = false) (hnd : addrs.Nodup) (hport : ∀ a ∈ addrs, a.2 < 2 ^ 31)
    (hk : k < addrs.length) (hint : k < 2 ^ 31) :
    (automatConns env s k addrs).map (serverAt addrs) = List.range ((k + 1) / 2) := by
  have hhs : isHandshake (fun i => (automatArgv k addrs).getD i []) = false := by
    unfold isHandshake
    rw [Bool.and_eq_false_iff]
    exact .inl (strCaseEq_numText addrs.length (c := 'r') (by decide) (by decide))
  have hid : toCInt (getLongOrReply env.id .invalidId (numText k)).1 = k := by
    unfold getLongOrReply
    rw [string2ll_numText (by omega)]
    exact toCInt_of_lt hint
  have hidx : (stepsOfTwo 0 k).map (4 + ·) = (List.range ((k + 1) / 2)).map (4 + 2 * ·) := by
    unfold stepsOfTwo
    rw [List.map_map]
    congr 1
    funext j
    simp
  have hservers := connectLoop_servers { env with connect := fun _ _ => true }
    (fun i => (automatArgv k addrs).getD i []) (List.range ((k + 1) / 2)) hnd hport (fun _ _ => rfl)
    (fun j hj => by rw [List.mem_range] at hj; omega) (fun j hj => automatArgv_addr k addrs hj)
  rw [← hidx] at hservers
  have harg2 : (automatArgv k addrs).getD 2 [] = numText k := rfl
  have harg3 : strCaseEq ((automatArgv k addrs).getD 3 []) "automat" = true := by
    change strCaseEq "AUTOMAT".toList "automat" = true
    decide
  unfold automatConns replicateCommand
  simp only [hcl, harg2, harg3, hhs, hid, Bool.false_eq_true, ↓reduceIte, Int.toNat_natCast]
  exact hservers

theorem count_flatMap_pair (f : ℕ → List ℕ) {l : List ℕ} (hl : l.Nodup) (k j : ℕ) :
    (l.flatMap fun a => (f a).map (a, ·)).count (k, j) = if k ∈ l then (f k).count j else 0 := by
  induction l with
  | nil => rfl
  | cons a l ih =>
    rw [List.nodup_cons] at hl
    have hinj : Function.Injective (fun b : ℕ => (k, b)) := fun b b' h => (Prod.mk.inj h).2
    rw [List.flatMap_cons, List.count_append, ih hl.2]
    by_cases hak : a = k
    · subst hak
      rw [List.count_map_of_injective _ _ hinj, if_neg hl.1, if_pos (List.mem_cons_self ..)]
      rfl
    · have hnot : (k, j) ∉ (f a).map (a, ·) := by
        intro h
        obtain ⟨b, -, hb⟩ := List.mem_map.mp h
        exact hak (Prod.mk.inj hb).1
      rw [List.count_eq_zero_of_not_mem hnot, Nat.zero_add]
      simp only [List.mem_cons, Ne.symm hak, false_or]

theorem automatLinks_eq (env : ℕ → P2pEnv) (s : ℕ → P2p) (addrs : List (Sds × ℕ)) :
    automatLinks env s addrs = (List.range addrs.length).flatMap fun k =>
      ((automatConns (env k) (s k) k addrs).map (serverAt addrs)).map (k, ·) := by
  unfold automatLinks
  congr 1
  funext k
  rw [List.map_map]
  rfl

/-- How many links `AUTOMAT` makes from server `k` to server `j`. -/
theorem automat_count (env : ℕ → P2pEnv) {s : ℕ → P2p} {addrs : List (Sds × ℕ)}
    (hcl : ∀ k, (s k).clusterEnabled = false) (hnd : addrs.Nodup)
    (hport : ∀ a ∈ addrs, a.2 < 2 ^ 31) {k : ℕ} (hint : k < 2 ^ 31) (j : ℕ) :
    (automatLinks env s addrs).count (k, j) = if k < addrs.length ∧ 2 * j < k then 1 else 0 := by
  rw [automatLinks_eq, count_flatMap_pair _ List.nodup_range]
  by_cases hk : k < addrs.length
  · rw [if_pos (List.mem_range.mpr hk), automat_servers (hcl k) hnd hport hk hint]
    by_cases hj : 2 * j < k
    · rw [if_pos ⟨hk, hj⟩]
      exact List.count_eq_one_of_mem List.nodup_range (List.mem_range.mpr (by omega))
    · rw [if_neg (fun h => hj h.2)]
      exact List.count_eq_zero_of_not_mem (fun h => by rw [List.mem_range] at h; omega)
  · rw [if_neg (fun h => hk (List.mem_range.mp h)), if_neg (fun h => hk h.1)]

/-- With `AUTOMAT` the servers form a full mesh if and only if there are at most two. -/
theorem automat_mesh_iff (env : ℕ → P2pEnv) (s : ℕ → P2p) (addrs : List (Sds × ℕ))
    (hcl : ∀ k, (s k).clusterEnabled = false) (hnd : addrs.Nodup)
    (hport : ∀ a ∈ addrs, a.2 < 2 ^ 16) :
    FullMesh addrs.length (automatLinks env s addrs) ↔ addrs.length ≤ 2 := by
  have hcount := fun {k : ℕ} (hk : k < 2 ^ 31) (j : ℕ) =>
    automat_count env hcl hnd (fun a ha => lt_trans (hport a ha) (by decide)) hk j
  constructor
  · intro h
    by_contra hlen
    -- servers 1 and 2 have no link
    have h12 := h.1 1 2 (by decide) (by omega)
    rw [hcount (by decide), hcount (by decide), if_neg (by omega), if_neg (by omega)] at h12
    cases h12
  · intro hlen
    refine ⟨?_, ?_⟩
    · intro a b hab hb
      obtain ⟨rfl, rfl⟩ : a = 0 ∧ b = 1 := by omega
      rw [hcount (by decide), hcount (by decide), if_neg (by omega), if_pos ⟨hb, by decide⟩]
    · intro a ha
      have hlt : a < addrs.length := by
        rw [automatLinks_eq] at ha
        obtain ⟨k, hk, hmem⟩ := List.mem_flatMap.mp ha
        obtain ⟨b, -, hb⟩ := List.mem_map.mp hmem
        rw [← (Prod.mk.inj hb).1]
        exact List.mem_range.mp hk
      have hzero := hcount (k := a) (by omega) a
      rw [if_neg (by omega)] at hzero
      exact absurd ha (List.count_eq_zero.mp hzero)

/-- Two servers are connected by one link. -/
theorem automat_mesh_two :
    FullMesh 2 (automatLinks (fun _ => ⟨0, 0, 0, fun _ _ => true⟩) (fun _ => .start)
      [("172.24.81.132".toList, 6379), ("172.24.81.136".toList, 6379)]) :=
  (automat_mesh_iff _ _ [("172.24.81.132".toList, 6379), ("172.24.81.136".toList, 6379)]
    (fun _ => rfl) (by decide) (by decide)).mpr (by decide)

/-- The three servers of the command's comment in `p2p.c`: the last two have no link. -/
theorem automat_misses_link :
    ¬ FullMesh 3 (automatLinks (fun _ => ⟨0, 0, 0, fun _ _ => true⟩) (fun _ => .start)
      [("172.24.81.132".toList, 6379), ("172.24.81.136".toList, 6379),
        ("172.24.81.137".toList, 6379)]) := by
  intro h
  have h12 := h.1 1 2 (by decide) (by decide)
  rw [automat_count _ (fun _ => rfl) (by decide) (by decide) (by decide),
    automat_count _ (fun _ => rfl) (by decide) (by decide) (by decide)] at h12
  exact absurd h12 (by decide)

end CrdtRedis

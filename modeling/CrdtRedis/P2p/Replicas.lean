import CrdtRedis.P2p.Replicate
import Mathlib.Logic.Relation

/-!
# The list of replicas (`p2p.c`, `networking.c`)

`server.replicas` holds the clients to which `replicationBroadcast` writes. A client is appended to
it when an outgoing connection is established (`replicationHandler`) and when a peer sends its
handshake (`replicateCommand`). `freeClient` takes a client from every list of the server but this
one. A handshake appends the client even if the list has it already.

`Host` is the server with the clients that are allocated; a client keeps its number when it is
freed, so that a dangling entry can be told from a client that lies at the same address later. Only
clients that the server accepted or that `replicationHandler` made are considered, not the link to
the master of the replication that the server had before (`server.master`).

* `replicas_intact`: as long as no client of the list is freed and no client of the list sends
  another handshake, the list holds exactly the live clients with `CLIENT_REPLICA`, each once, and a
  broadcast writes once to each of them and to no other.
* `replicas_broken`: runs with a client of either kind.
-/

namespace CrdtRedis

/-- The server with its clients. -/
structure Host extends P2p where
  /-- `server.next_client_id`. -/
  nextClientId : ℕ
  /-- The clients that are not freed. -/
  clients : List ℕ
  /-- `server.clients_to_close`. -/
  clientsToClose : List ℕ
  /-- How many connections `connConnect` has started. -/
  connecting : ℕ
  /-- The messages written to a client. -/
  out : ℕ → List (List Sds)

namespace Host

def start : Host := ⟨P2p.start, 0, [], [], 0, fun _ => []⟩

/-- `createClient`: the server with the client, which is the one with the highest number. -/
def createClient (h : Host) : Host :=
  { h with
    nextClientId := h.nextClientId + 1
    clients := h.clients ++ [h.nextClientId + 1]
    flags := Function.update h.flags (h.nextClientId + 1) ⟨false, false, false⟩
    out := Function.update h.out (h.nextClientId + 1) [] }

/-- `replicationHandler`: a connection is established, or has failed. -/
def replicationHandler (h : Host) : Host :=
  let r := h.createClient.nextClientId
  { h.createClient with
    connecting := h.connecting - 1
    flags := Function.update h.createClient.flags r { h.createClient.flags r with replica := true }
    replicas := h.createClient.replicas ++ [r] }

/-- `freeClientAsync`. -/
def freeClientAsync (h : Host) (c : ℕ) : Host :=
  if (h.flags c).closeAsap then h
  else
    { h with
      flags := Function.update h.flags c { h.flags c with closeAsap := true }
      clientsToClose := h.clientsToClose ++ [c] }

/-- `freeClient`. -/
def freeClient (h : Host) (c : ℕ) : Host :=
  if (h.flags c).inUse then h.freeClientAsync c
  else
    { h with
      clientsToClose := if (h.flags c).closeAsap then h.clientsToClose.erase c else h.clientsToClose
      clients := h.clients.filter (· ≠ c) }

/-- One turn of the loop of `freeClientsInAsyncFreeQueue`. -/
def freeQueued (h : Host) (c : ℕ) : Host :=
  if (h.flags c).inUse then h
  else
    let h := freeClient
      { h with flags := Function.update h.flags c { h.flags c with closeAsap := false } } c
    { h with clientsToClose := h.clientsToClose.erase c }

/-- `freeClientsInAsyncFreeQueue`. -/
def freeClientsInAsyncFreeQueue (h : Host) : Host := h.clientsToClose.foldl freeQueued h

/-- `replicationBroadcast`: the message is written to one entry of the list after the other. -/
def broadcast (h : Host) (m : List Sds) : Host :=
  { h with
    out := h.replicas.foldl (fun out c => Function.update out c (out c ++ [m])) h.out }

end Host

/-- What happens at a server. -/
inductive HostEv where
  /-- `acceptCommonHandler`. -/
  | accept
  /-- An outgoing connection calls its handler. -/
  | established
  | replicate (env : P2pEnv) (c argc : ℕ) (argv : ℕ → Sds)
  /-- `freeClient`, for any reason. -/
  | free (c : ℕ)
  /-- `protectClient` and `unprotectClient`. -/
  | inUse (c : ℕ) (b : Bool)
  | freeAsync
  /-- A CRDT write, with the `rargv` that its prepare phase makes if it succeeds. -/
  | crdt (c : ℕ) (rargv : Option (List Sds))

namespace Host

/-- The events that can happen: only a client that is not freed sends a command or goes away. -/
def Enabled (h : Host) : HostEv → Prop
  | .accept | .freeAsync => True
  | .established => 0 < h.connecting
  | .replicate _ c argc _ => c ∈ h.clients ∧ 3 ≤ argc
  | .free c | .inUse c _ | .crdt c _ => c ∈ h.clients

def step (h : Host) : HostEv → Host
  | .accept => h.createClient
  | .established => h.replicationHandler
  | .replicate env c argc argv =>
    { h with
      toP2p := (replicateCommand env c argc argv h.toP2p).1
      connecting := h.connecting + (replicateCommand env c argc argv h.toP2p).2.conns.length }
  | .free c => h.freeClient c
  | .inUse c b => { h with flags := Function.update h.flags c { h.flags c with inUse := b } }
  | .freeAsync => h.freeClientsInAsyncFreeQueue
  | .crdt c rargv =>
    if h.replicationMode && !(h.flags c).replica then (rargv.map h.broadcast).getD h else h

/-- The states that runs reach whose steps satisfy `G`. -/
def Reach (G : Host → HostEv → Prop) : Host → Prop :=
  Relation.ReflTransGen (fun h h' => ∃ e, h.Enabled e ∧ G h e ∧ h' = h.step e) start

/-- A step that frees no client of the list, and is no handshake of such a client. A protected
client is not freed at once. -/
def Keeps (h : Host) : HostEv → Prop
  | .free c => c ∈ h.replicas → (h.flags c).inUse = true
  | .freeAsync => ∀ c ∈ h.clientsToClose, c ∈ h.replicas → (h.flags c).inUse = true
  | .replicate _ c _ argv => h.clusterEnabled = false → isHandshake argv = true → c ∉ h.replicas
  | _ => True

/-! ## Freeing -/

/-- `h'` is `h` without the clients in `gone`. -/
structure Frees (gone : ℕ → Prop) (h h' : Host) : Prop where
  replicas : h'.replicas = h.replicas
  next : h'.nextClientId = h.nextClientId
  replica : ∀ c, (h'.flags c).replica = (h.flags c).replica
  inUse : ∀ c, (h'.flags c).inUse = (h.flags c).inUse
  clients : ∀ c, c ∈ h'.clients ↔ c ∈ h.clients ∧ ¬ gone c

theorem Frees.trans {p q : ℕ → Prop} {h h' h'' : Host} (h₁ : Frees p h h') (h₂ : Frees q h' h'') :
    Frees (fun c => p c ∨ q c) h h'' where
  replicas := h₂.replicas.trans h₁.replicas
  next := h₂.next.trans h₁.next
  replica c := (h₂.replica c).trans (h₁.replica c)
  inUse c := (h₂.inUse c).trans (h₁.inUse c)
  clients c := by rw [h₂.clients, h₁.clients]; tauto

/-- A flag that an update of the flags keeps for its client is kept for every client. -/
theorem flag_update {β : Type} (get : PeerFlags → β) (f : ℕ → PeerFlags) {c : ℕ} {x : PeerFlags}
    (hx : get x = get (f c)) (d : ℕ) : get (Function.update f c x d) = get (f d) := by
  by_cases hd : d = c
  · subst hd
    rw [Function.update_self, hx]
  · rw [Function.update_of_ne hd]

theorem freeClientAsync_frees (h : Host) (c : ℕ) :
    Frees (fun _ => False) h (h.freeClientAsync c) := by
  unfold freeClientAsync
  split
  · exact ⟨rfl, rfl, fun _ => rfl, fun _ => rfl, fun _ => by simp⟩
  · exact ⟨rfl, rfl, flag_update _ h.flags rfl, flag_update _ h.flags rfl, fun _ => by simp⟩

theorem freeClient_frees (h : Host) (c : ℕ) :
    Frees (fun d => d = c ∧ (h.flags c).inUse = false) h (h.freeClient c) := by
  unfold freeClient
  split
  · next huse =>
    obtain ⟨hr, hn, hrep, hin, hcl⟩ := freeClientAsync_frees h c
    exact ⟨hr, hn, hrep, hin, fun d => by rw [hcl]; simp [huse]⟩
  · next huse =>
    rw [Bool.not_eq_true] at huse
    exact ⟨rfl, rfl, fun _ => rfl, fun _ => rfl, fun d => by simp [huse]⟩

theorem freeQueued_frees (h : Host) (c : ℕ) :
    Frees (fun d => d = c ∧ (h.flags c).inUse = false) h (h.freeQueued c) := by
  unfold freeQueued
  split
  · next huse => exact ⟨rfl, rfl, fun _ => rfl, fun _ => rfl, fun d => by simp [huse]⟩
  · next huse =>
    rw [Bool.not_eq_true] at huse
    obtain ⟨hr, hn, hrep, hin, hcl⟩ := freeClient_frees
      { h with flags := Function.update h.flags c { h.flags c with closeAsap := false } } c
    refine ⟨hr, hn, fun d => ?_, fun d => ?_, fun d => ?_⟩
    · exact (hrep d).trans (flag_update PeerFlags.replica h.flags (x := ⟨_, _, false⟩) rfl d)
    · exact (hin d).trans (flag_update PeerFlags.inUse h.flags (x := ⟨_, _, false⟩) rfl d)
    · simpa [huse] using hcl d

theorem freeQueue_frees (cs : List ℕ) (h : Host) :
    Frees (fun d => d ∈ cs ∧ (h.flags d).inUse = false) h (cs.foldl freeQueued h) := by
  induction cs generalizing h with
  | nil => exact ⟨rfl, rfl, fun _ => rfl, fun _ => rfl, fun _ => by simp⟩
  | cons c cs ih =>
    have hfirst := freeQueued_frees h c
    obtain ⟨hr, hn, hrep, hin, hcl⟩ := hfirst.trans (ih (h.freeQueued c))
    refine ⟨hr, hn, hrep, hin, fun d => ?_⟩
    rw [List.foldl_cons, hcl, hfirst.inUse, List.mem_cons]
    by_cases hd : d = c
    · subst hd; tauto
    · tauto

/-! ## The invariant -/

/-- The list of replicas has exactly the live clients with `CLIENT_REPLICA`, each once. -/
structure Intact (h : Host) : Prop where
  nodup : h.replicas.Nodup
  live : ∀ c ∈ h.replicas, c ∈ h.clients
  flag : ∀ c ∈ h.clients, c ∈ h.replicas ↔ (h.flags c).replica = true
  next : ∀ c ∈ h.clients, c ≤ h.nextClientId

theorem Frees.intact {gone : ℕ → Prop} {h h' : Host} (hf : Frees gone h h') (hi : Intact h)
    (hkeep : ∀ c ∈ h.replicas, ¬ gone c) : Intact h' where
  nodup := by rw [hf.replicas]; exact hi.nodup
  live c hc := by
    rw [hf.replicas] at hc
    exact (hf.clients c).mpr ⟨hi.live c hc, hkeep c hc⟩
  flag c hc := by
    rw [hf.replicas, hf.replica]
    exact hi.flag c ((hf.clients c).mp hc).1
  next c hc := by
    rw [hf.next]
    exact hi.next c ((hf.clients c).mp hc).1

theorem createClient_intact {h : Host} (hi : Intact h) : Intact h.createClient where
  nodup := hi.nodup
  live c hc := List.mem_append_left _ (hi.live c hc)
  flag c hc := by
    rcases List.mem_append.mp hc with hc | hc
    · have hne : c ≠ h.nextClientId + 1 := by
        have := hi.next c hc
        omega
      change c ∈ h.replicas ↔ (Function.update h.flags _ _ c).replica = true
      rw [Function.update_of_ne hne]
      exact hi.flag c hc
    · -- the new client is not in the list yet
      have hnew : c ∉ h.replicas := fun hm => by
        have := hi.next c (hi.live c hm)
        rw [List.mem_singleton] at hc
        omega
      rw [List.mem_singleton] at hc
      subst hc
      simp [createClient, hnew]
  next c hc := by
    rcases List.mem_append.mp hc with hc | hc
    · exact le_trans (hi.next c hc) (Nat.le_succ _)
    · rw [List.mem_singleton] at hc
      exact le_of_eq hc

/-- A live client that is not in the list yet is appended, with its flag. -/
theorem Intact.append {h h' : Host} {c : ℕ} (hi : Intact h) (hc : c ∈ h.clients)
    (hnew : c ∉ h.replicas) (hr : h'.replicas = h.replicas ++ [c]) (hcl : h'.clients = h.clients)
    (hn : h'.nextClientId = h.nextClientId)
    (hf : h'.flags = Function.update h.flags c { h.flags c with replica := true }) : Intact h' where
  nodup := by
    rw [hr]
    exact List.nodup_append.mpr ⟨hi.nodup, List.nodup_singleton c, by
      rintro a ha b hb rfl
      rw [List.mem_singleton] at hb
      exact hnew (hb ▸ ha)⟩
  live d hd := by
    rw [hr] at hd
    rw [hcl]
    rcases List.mem_append.mp hd with hd | hd
    · exact hi.live d hd
    · rw [List.mem_singleton] at hd
      exact hd ▸ hc
  flag d hd := by
    rw [hcl] at hd
    rw [hr, hf, List.mem_append, List.mem_singleton]
    by_cases hdc : d = c
    · subst hdc; simp
    · rw [Function.update_of_ne hdc, hi.flag d hd]
      simp [hdc]
  next d hd := by
    rw [hcl] at hd
    rw [hn]
    exact hi.next d hd

theorem step_intact {h : Host} {e : HostEv} (hi : Intact h) (hen : h.Enabled e)
    (hk : h.Keeps e) : Intact (h.step e) := by
  cases e with
  | accept => exact createClient_intact hi
  | established =>
    have hc := createClient_intact hi
    refine hc.append (c := h.createClient.nextClientId) (List.mem_append_right _ ?_) ?_ rfl rfl rfl
      rfl
    · exact List.mem_singleton_self _
    · intro hm
      have := hi.next _ (hi.live _ hm)
      simp [createClient] at this
  | replicate env c argc argv =>
    rcases replicate_cases env c argc argv h.toP2p with ⟨-, he⟩ | ⟨hcl, hhs, he⟩ | ⟨-, -, x, he⟩
    · refine ⟨?_, ?_, ?_, ?_⟩ <;> simp only [step, he]
      exacts [hi.nodup, hi.live, hi.flag, hi.next]
    · refine hi.append hen.1 (hk hcl hhs) ?_ rfl rfl ?_ <;> simp only [step, he]
    · refine ⟨?_, ?_, ?_, ?_⟩ <;> simp only [step, he]
      exacts [hi.nodup, hi.live, hi.flag, hi.next]
  | free c =>
    refine (freeClient_frees h c).intact hi ?_
    rintro d hd ⟨rfl, huse⟩
    rw [hk hd] at huse
    cases huse
  | inUse c b =>
    refine ⟨hi.nodup, hi.live, fun d hd => ?_, hi.next⟩
    have hsame := flag_update PeerFlags.replica h.flags (c := c)
      (x := { h.flags c with inUse := b }) rfl d
    change d ∈ h.replicas ↔ (Function.update h.flags c _ d).replica = true
    rw [hsame]
    exact hi.flag d hd
  | freeAsync =>
    refine (freeQueue_frees h.clientsToClose h).intact hi ?_
    rintro d hd ⟨hq, huse⟩
    rw [hk d hq hd] at huse
    cases huse
  | crdt c rargv =>
    -- a broadcast changes only what is written
    have hout : ∀ m, Intact (h.broadcast m) := fun m => ⟨hi.nodup, hi.live, hi.flag, hi.next⟩
    change Intact (if h.replicationMode && !(h.flags c).replica then _ else h)
    split
    · cases rargv with
      | none => exact hi
      | some m => exact hout m
    · exact hi

theorem reach_intact {h : Host} (hr : Reach Keeps h) : Intact h := by
  induction hr with
  | refl =>
    exact ⟨List.nodup_nil, fun c hc => absurd hc List.not_mem_nil,
      fun c hc => absurd hc List.not_mem_nil, fun c hc => absurd hc List.not_mem_nil⟩
  | tail _ hs ih =>
    obtain ⟨e, hen, hk, rfl⟩ := hs
    exact step_intact ih hen hk

/-! ## The broadcast -/

/-- A broadcast writes to a client as often as the list has it. -/
theorem foldl_out (m : List Sds) (cs : List ℕ) (out : ℕ → List (List Sds)) (c : ℕ) :
    cs.foldl (fun out c => Function.update out c (out c ++ [m])) out c =
      out c ++ List.replicate (cs.count c) m := by
  induction cs generalizing out with
  | nil => simp
  | cons d cs ih =>
    rw [List.foldl_cons, ih]
    by_cases hd : c = d
    · subst hd
      rw [Function.update_self, List.count_cons_self, List.append_assoc, List.replicate_succ]
      rfl
    · rw [Function.update_of_ne hd, List.count_cons_of_ne (Ne.symm hd)]

end Host

/-- In every run that frees no client of the list, and in which no client of the list sends another
handshake, the list has only clients that are not freed, each once, and a broadcast writes its
message once to each live client with `CLIENT_REPLICA` and to no other. -/
theorem replicas_intact {h : Host} (hr : h.Reach Host.Keeps) :
    (∀ c ∈ h.replicas, c ∈ h.clients) ∧ h.replicas.Nodup ∧
      ∀ m c, (h.broadcast m).out c =
        if c ∈ h.clients ∧ (h.flags c).replica = true then h.out c ++ [m] else h.out c := by
  have hi := Host.reach_intact hr
  refine ⟨hi.live, hi.nodup, fun m c => ?_⟩
  have hmem : c ∈ h.replicas ↔ c ∈ h.clients ∧ (h.flags c).replica = true := by
    constructor
    · intro hc
      exact ⟨hi.live c hc, (hi.flag c (hi.live c hc)).mp hc⟩
    · rintro ⟨hc, hf⟩
      exact (hi.flag c hc).mpr hf
  have hout := Host.foldl_out m h.replicas h.out c
  by_cases hc : c ∈ h.replicas
  · rw [if_pos (hmem.mp hc), ← List.replicate_one, ← List.count_eq_one_of_mem hi.nodup hc]
    exact hout
  · rw [List.count_eq_zero_of_not_mem hc, List.replicate_zero, List.append_nil] at hout
    rw [if_neg (fun h' => hc (hmem.mpr h'))]
    exact hout

/-- The handshake of client `c`. -/
def handshakeOf (c : ℕ) : HostEv :=
  .replicate ⟨0, 0, 0, fun _ _ => true⟩ c 3 (argvOf ["REPLICATE", "REPLICA", "HANDSHAKE"])

/-- A server that accepted a client, which sent its handshake. -/
def handshakeHost : Host := (Host.start.step .accept).step (handshakeOf 1)

theorem handshakeHost_reach (G : Host → HostEv → Prop) (h₁ : G Host.start .accept)
    (h₂ : G (Host.start.step .accept) (handshakeOf 1)) : handshakeHost.Reach G := by
  have hacc : (Host.start.step .accept).Reach G :=
    Relation.ReflTransGen.refl.tail ⟨.accept, trivial, h₁, rfl⟩
  exact hacc.tail ⟨handshakeOf 1, ⟨by decide, by decide⟩, h₂, rfl⟩

instance Host.decidableEnabled (h : Host) : (e : HostEv) → Decidable (h.Enabled e)
  | .accept | .freeAsync => inferInstanceAs (Decidable True)
  | .established => inferInstanceAs (Decidable (0 < h.connecting))
  | .replicate _ c argc _ => inferInstanceAs (Decidable (c ∈ h.clients ∧ 3 ≤ argc))
  | .free c | .inUse c _ | .crdt c _ => inferInstanceAs (Decidable (c ∈ h.clients))

instance Host.decidableKeeps (h : Host) : (e : HostEv) → Decidable (h.Keeps e)
  | .free c => inferInstanceAs (Decidable (c ∈ h.replicas → (h.flags c).inUse = true))
  | .freeAsync =>
    inferInstanceAs (Decidable (∀ c ∈ h.clientsToClose, c ∈ h.replicas → (h.flags c).inUse = true))
  | .replicate _ c _ argv => inferInstanceAs (Decidable
      (h.clusterEnabled = false → isHandshake argv = true → c ∉ h.replicas))
  | .accept | .established | .inUse .. | .crdt .. => inferInstanceAs (Decidable True)

/-- The events can happen one after the other, and each satisfies `Keeps`. -/
def Host.keepsAll : Host → List HostEv → Bool
  | _, [] => true
  | h, e :: es => decide (h.Enabled e) && decide (h.Keeps e) && keepsAll (h.step e) es

theorem Host.reach_of_keepsAll {h : Host} {es : List HostEv} (hr : h.Reach Keeps)
    (hes : h.keepsAll es = true) : (es.foldl step h).Reach Keeps := by
  induction es generalizing h with
  | nil => exact hr
  | cons e es ih =>
    simp only [keepsAll, Bool.and_eq_true, decide_eq_true_eq] at hes
    exact ih (hr.tail ⟨e, hes.1.1, hes.1.2, rfl⟩) hes.2

/-- A server with three links: client 1 and client 3 send their handshakes, and client 4 is a
connection that the server made for client 2. Client 2 goes away, and so does client 3, which is
protected: it is only put into the queue, and the queue skips it. Then client 5 writes. -/
def threeLinks : List HostEv :=
  [.accept, handshakeOf 1, .accept,
    .replicate ⟨0, 0, 0, fun _ _ => true⟩ 2 5
      (argvOf ["REPLICATE", "4", "1", "172.24.81.132", "6379"]),
    .accept, handshakeOf 3, .established, .free 2, .inUse 3 true, .free 3, .freeAsync, .accept,
    .crdt 5 (some [['w']])]

/-- The hypothesis holds of that run, after which each of the links gets a message once, and client
5 none. -/
theorem replicas_intact_handshake :
    let h := threeLinks.foldl Host.step Host.start
    h.replicas = [1, 3, 4] ∧ h.clients = [1, 3, 4, 5] ∧ h.clientsToClose = [3] ∧
      h.replicas.Nodup ∧ (∀ c ∈ h.replicas, h.out c = [[['w']]]) ∧
      (∀ c ∈ [1, 3, 4], (h.broadcast [['x']]).out c = [[['w']], [['x']]]) ∧
      (h.broadcast [['x']]).out 5 = [] := by
  intro h
  have hr : h.Reach Host.Keeps :=
    Host.reach_of_keepsAll Relation.ReflTransGen.refl (by decide +kernel)
  obtain ⟨-, hnodup, hout⟩ := replicas_intact hr
  refine ⟨by decide +kernel, by decide +kernel, by decide +kernel, hnodup, by decide +kernel,
    fun c hc => ?_, ?_⟩
  · rw [hout, if_pos]
    · revert c
      decide +kernel
    · revert c
      decide +kernel
  · rw [hout, if_neg (by decide +kernel)]
    decide +kernel

/-- A peer that goes away stays in the list; a peer that sends its handshake twice is in it
twice. -/
theorem replicas_broken :
    (∃ h : Host, h.Reach (fun _ _ => True) ∧ ∃ c ∈ h.replicas, c ∉ h.clients) ∧
      ∃ h : Host, h.Reach (fun _ _ => True) ∧ ¬ h.replicas.Nodup := by
  have hr := handshakeHost_reach (fun _ _ => True) trivial trivial
  refine ⟨⟨handshakeHost.step (.free 1), hr.tail ⟨.free 1, ?_, trivial, rfl⟩, 1, ?_, ?_⟩,
    ⟨handshakeHost.step (handshakeOf 1), hr.tail ⟨handshakeOf 1, ⟨?_, ?_⟩, trivial, rfl⟩, ?_⟩⟩
  · change 1 ∈ handshakeHost.clients
    decide +kernel
  · decide +kernel
  · decide +kernel
  · decide +kernel
  · decide
  · decide +kernel

end CrdtRedis

import AxiomDaemon.Protocol.Framing
import AxiomDaemon.Lib.Transition
import Mathlib.Logic.Function.Basic

/-!
The one connection to the daemon that all threads of an agent process share,
and the query they send over it: `nr_cmd_appinfo_tx` with the descriptor
functions of `nr_agent.c`.

A thread fetches the descriptor, then takes the daemon mutex, writes its
query, waits for the reply, and releases the mutex. If no usable reply came
it takes the mutex a second time and closes the connection. Between the two
critical sections another thread that already holds the descriptor may run
its own exchange on the same connection, in front of a reply that is still
under way.

Scheduling, the time at which a wait times out, the number of bytes that were
transferred before it did, and the daemon's replies are all labels of the
transition function; a label whose thread is elsewhere changes nothing.
-/

namespace AxiomDaemon.Protocol

open AxiomDaemon.Lib AxiomDaemon.Axiom AxiomDaemon.Daemon

/-- The bytes under way in the two directions of a connection. -/
structure Connection where
  toDaemon : List UInt8
  toAgent : List UInt8

/-- Where a thread is in `nr_app_consider_appinfo` and `nr_cmd_appinfo_tx`. -/
inductive ThreadState (App : Type)
  | idle
  | hasFd (app : App) (fd : ℕ)
  | locked (app : App) (fd : ℕ) (query : List UInt8)
  | wrote (app : App) (fd : ℕ) (query : List UInt8)
  | received (app : App) (buf : Option (List UInt8))
  | replied (app : App) (buf : Option (List UInt8))
  | closing

/-- The process and its connections. The last three fields are history: the
queries written, the daemon's answers to them, and the replies applied to an
application. -/
structure World (App : Type) where
  threads : ℕ → ThreadState App
  mutex : Option ℕ
  daemonFd : Option ℕ
  descriptors : ℕ → Option Connection
  queries : List (App × List UInt8)
  answers : List (List UInt8 × List UInt8)
  applied : List (App × List UInt8)

inductive Event (App : Type)
  | getDaemonFd (t : ℕ) (app : App) (opened : Option ℕ)
  | invalidQuery (t : ℕ)
  | lock (t : ℕ) (query : List UInt8)
  | write (t : ℕ) (failedAfter : Option ℕ)
  | receive (t : ℕ) (failedAfter : Option ℕ)
  | unlock (t : ℕ)
  | processReply (t : ℕ) (success : Bool)
  | closeConnection (t : ℕ)
  | answer (fd : ℕ) (reply : List UInt8)

section

variable {App : Type}

namespace World

def setThread (s : World App) (t : ℕ) (st : ThreadState App) : World App :=
  { s with threads := Function.update s.threads t st }

def setDescriptor (s : World App) (fd : ℕ) (c : Option Connection) : World App :=
  { s with descriptors := Function.update s.descriptors fd c }

theorem threads_setThread (s : World App) (t u : ℕ) (st : ThreadState App) :
    u = t ∧ (s.setThread t st).threads u = st ∨
      u ≠ t ∧ (s.setThread t st).threads u = s.threads u := by
  by_cases hut : u = t
  · exact .inl ⟨hut, hut ▸ Function.update_self ..⟩
  · exact .inr ⟨hut, Function.update_of_ne hut ..⟩

end World

/-- `nr_get_daemon_fd`, and the start of `nr_cmd_appinfo_tx`, which returns at
once when there is no descriptor. `opened` is the number of a new connection
that could be established. -/
def getDaemonFd (s : World App) (t : ℕ) (app : App) (opened : Option ℕ) : World App :=
  match s.threads t, s.mutex with
  | .idle, none =>
      match s.daemonFd, opened with
      | some fd, _ => s.setThread t (.hasFd app fd)
      | none, some fd =>
          if (s.descriptors fd).isSome then s
          else
            { (s.setDescriptor fd (some ⟨[], []⟩)).setThread t (.hasFd app fd) with
              daemonFd := some fd }
      | none, none => s
  | _, _ => s

/-- `nr_write_message` under the mutex. `failedAfter` bytes are transferred
before a write that fails. -/
def writeQuery (s : World App) (t : ℕ) (failedAfter : Option ℕ) : World App :=
  match s.threads t with
  | .locked app fd query =>
      match nrWriteMessage query, s.descriptors fd, failedAfter with
      | some bytes, some c, none =>
          { (s.setDescriptor fd (some { c with toDaemon := c.toDaemon ++ bytes })).setThread t
              (.wrote app fd query) with
            queries := (app, query) :: s.queries }
      | some bytes, some c, some n =>
          (s.setDescriptor fd (some { c with toDaemon := c.toDaemon ++ bytes.take n })).setThread t
            (.received app none)
      | _, _, _ => s.setThread t (.received app none)
  | _ => s

/-- `nr_network_receive` under the mutex. It waits for a whole message, or
gives up after some bytes. -/
def receiveReply (s : World App) (t : ℕ) (failedAfter : Option ℕ) : World App :=
  match s.threads t with
  | .wrote app fd _ =>
      match s.descriptors fd, failedAfter with
      | some c, none =>
          match nrNetworkReceive c.toAgent with
          | some (buf, rest) =>
              (s.setDescriptor fd (some { c with toAgent := rest })).setThread t
                (.received app (some buf))
          | none => s
      | some c, some n =>
          (s.setDescriptor fd (some { c with toAgent := c.toAgent.drop n })).setThread t
            (.received app none)
      | none, _ => s.setThread t (.received app none)
  | _ => s

/-- `nr_cmd_appinfo_process_reply`, which fails without a buffer. -/
def processReply (s : World App) (t : ℕ) (success : Bool) : World App :=
  match s.threads t with
  | .replied app (some buf) =>
      { s.setThread t (if success then .idle else .closing) with
        applied := (app, buf) :: s.applied }
  | .replied _ none => s.setThread t .closing
  | _ => s

/-- `nr_agent_close_daemon_connection`. -/
def closeConnection (s : World App) (t : ℕ) : World App :=
  match s.threads t, s.mutex with
  | .closing, none =>
      match s.daemonFd with
      | some fd => { (s.setDescriptor fd none).setThread t .idle with daemonFd := none }
      | none => s.setThread t .idle
  | _, _ => s

/-- The daemon reads the next query of a connection and answers it. A reply
is a flatbuffer, which cannot grow beyond two gigabytes. -/
def answerQuery (s : World App) (fd : ℕ) (reply : List UInt8) : World App :=
  match s.descriptors fd with
  | some c =>
      match readMessage c.toDaemon with
      | .ok (msg, rest) =>
          if reply.length < 2 ^ 31 then
            { s.setDescriptor fd (some
                { toDaemon := rest, toAgent := c.toAgent ++ messageWriterWrite msg.type reply }) with
              answers := (msg.bytes, reply) :: s.answers }
          else s
      | .error _ => s
  | none => s

def execEvent (s : World App) : Event App → World App
  | .getDaemonFd t app opened => getDaemonFd s t app opened
  | .invalidQuery t =>
      match s.threads t with
      | .hasFd _ _ => s.setThread t .idle
      | _ => s
  | .lock t query =>
      match s.threads t, s.mutex with
      | .hasFd app fd, none => { s.setThread t (.locked app fd query) with mutex := some t }
      | _, _ => s
  | .write t failedAfter => writeQuery s t failedAfter
  | .receive t failedAfter => receiveReply s t failedAfter
  | .unlock t =>
      match s.threads t with
      | .received app buf => { s.setThread t (.replied app buf) with mutex := none }
      | _ => s
  | .processReply t success => processReply s t success
  | .closeConnection t => closeConnection s t
  | .answer fd reply => answerQuery s fd reply

def initialWorld : World App where
  threads := fun _ => .idle
  mutex := none
  daemonFd := none
  descriptors := fun _ => none
  queries := []
  answers := []
  applied := []

/-! ### Replies are not crossed -/

/-- `buf` is the daemon's answer to a query for `app`. -/
def AnswersFor (s : World App) (app : App) (buf : List UInt8) : Prop :=
  ∃ query, (app, query) ∈ s.queries ∧ (query, buf) ∈ s.answers

/-- Every reply applied to an application answers a query for it. -/
def RepliesNotCrossed (s : World App) : Prop :=
  ∀ app buf, (app, buf) ∈ s.applied → AnswersFor s app buf

/-- A query is written only to a connection on which nothing is under way: no
earlier query is unanswered and no earlier reply is unread. -/
def WritesToQuietConnection (s : World App) : Event App → Prop
  | .write t _ =>
      match s.threads t with
      | .locked _ fd _ => ∀ c, s.descriptors fd = some c → c.toDaemon = [] ∧ c.toAgent = []
      | _ => True
  | _ => True

/-- The thread is between `nr_agent_lock_daemon_mutex` and
`nr_agent_unlock_daemon_mutex`. -/
def ThreadState.Critical : ThreadState App → Prop
  | .locked _ _ _ | .wrote _ _ _ | .received _ _ => True
  | _ => False

/-- The connection carries the one query, or the answer to it. -/
def InExchange (s : World App) (c : Connection) (query : List UInt8) : Prop :=
  (c.toDaemon = frame query ∧ query.length < 2 ^ 32 ∧ c.toAgent = []) ∨
    (c.toDaemon = [] ∧ ∃ reply, c.toAgent = messageWriterWrite messageTypeBinary reply ∧
      reply.length < 2 ^ 31 ∧ (query, reply) ∈ s.answers)

structure ConnectionInv (s : World App) : Prop where
  exclusive : ∀ t, (s.threads t).Critical → s.mutex = some t
  exchange : ∀ t app fd query, s.threads t = .wrote app fd query →
    (app, query) ∈ s.queries ∧ ∃ c, s.descriptors fd = some c ∧ InExchange s c query
  received : ∀ t app buf, s.threads t = .received app (some buf) → AnswersFor s app buf
  replied : ∀ t app buf, s.threads t = .replied app (some buf) → AnswersFor s app buf
  applied : RepliesNotCrossed s

theorem initialWorld_inv : ConnectionInv (initialWorld : World App) where
  exclusive := by intro t h; exact h.elim
  exchange := by intro t app fd query h; cases h
  received := by intro t app buf h; cases h
  replied := by intro t app buf h; cases h
  applied := by intro app buf h; cases h

/-- A step that moves only thread `t`, to a state that needs nothing from the
invariant but what the hypotheses say, and leaves the connections alone. -/
theorem ConnectionInv.setThread {s : World App} (h : ConnectionInv s) {t : ℕ}
    {st : ThreadState App} (hcrit : st.Critical → s.mutex = some t)
    (hwrote : ∀ app fd query, st = .wrote app fd query →
      (app, query) ∈ s.queries ∧ ∃ c, s.descriptors fd = some c ∧ InExchange s c query)
    (hreceived : ∀ app buf, st = .received app (some buf) → AnswersFor s app buf)
    (hreplied : ∀ app buf, st = .replied app (some buf) → AnswersFor s app buf) :
    ConnectionInv (s.setThread t st) where
  exclusive := by
    intro u hu
    rcases s.threads_setThread t u st with ⟨rfl, heq⟩ | ⟨-, heq⟩ <;> rw [heq] at hu
    · exact hcrit hu
    · exact h.exclusive u hu
  exchange := by
    intro u app fd query hu
    rcases s.threads_setThread t u st with ⟨rfl, heq⟩ | ⟨-, heq⟩ <;> rw [heq] at hu
    · exact hwrote app fd query hu
    · exact h.exchange u app fd query hu
  received := by
    intro u app buf hu
    rcases s.threads_setThread t u st with ⟨rfl, heq⟩ | ⟨-, heq⟩ <;> rw [heq] at hu
    · exact hreceived app buf hu
    · exact h.received u app buf hu
  replied := by
    intro u app buf hu
    rcases s.threads_setThread t u st with ⟨rfl, heq⟩ | ⟨-, heq⟩ <;> rw [heq] at hu
    · exact hreplied app buf hu
    · exact h.replied u app buf hu
  applied := h.applied

theorem ConnectionInv.wrote_mutex {s : World App} (h : ConnectionInv s) {t : ℕ} {app : App}
    {fd : ℕ} {query : List UInt8} (ht : s.threads t = .wrote app fd query) :
    s.mutex = some t := by
  apply h.exclusive t
  rw [ht]
  trivial

/-- No thread but `t` is in an exchange while `t` is in its critical
section. -/
theorem ConnectionInv.not_wrote_of_critical {s : World App} (h : ConnectionInv s) {t u : ℕ}
    (ht : (s.threads t).Critical) {app : App} {fd : ℕ} {query : List UInt8}
    (hu : s.threads u = .wrote app fd query) : u = t := by
  have hmutex := h.exclusive t ht
  rw [h.wrote_mutex hu] at hmutex
  exact Option.some.inj hmutex

/-- Descriptors may change freely while no thread is in an exchange. -/
theorem ConnectionInv.setDescriptor {s : World App} (h : ConnectionInv s)
    (hquiet : ∀ t app fd query, s.threads t ≠ .wrote app fd query) (fd : ℕ)
    (c : Option Connection) : ConnectionInv (s.setDescriptor fd c) where
  exclusive := h.exclusive
  exchange := by
    intro t app fd query ht
    exact absurd ht (hquiet t app fd query)
  received := h.received
  replied := h.replied
  applied := h.applied

theorem ConnectionInv.daemonFd {s : World App} (h : ConnectionInv s) (fd : Option ℕ) :
    ConnectionInv { s with daemonFd := fd } := ⟨h.exclusive, h.exchange, h.received, h.replied,
  h.applied⟩

theorem ConnectionInv.not_wrote_of_free {s : World App} (h : ConnectionInv s)
    (hfree : s.mutex = none) (t : ℕ) (app : App) (fd : ℕ) (query : List UInt8) :
    s.threads t ≠ .wrote app fd query := by
  intro ht
  rw [h.wrote_mutex ht] at hfree
  cases hfree

/-! ### One step of each kind -/

theorem ConnectionInv.getDaemonFd {s : World App} (h : ConnectionInv s) (t : ℕ) (app : App)
    (opened : Option ℕ) : ConnectionInv (getDaemonFd s t app opened) := by
  have hset {s : World App} (h : ConnectionInv s) (fd : ℕ) :
      ConnectionInv (s.setThread t (.hasFd app fd)) :=
    h.setThread (fun hcrit => hcrit.elim) nofun nofun nofun
  unfold AxiomDaemon.Protocol.getDaemonFd
  split
  · next _ hfree =>
      split
      · exact hset h _
      · next fd _ =>
          split
          · exact h
          · exact (hset (h.setDescriptor (h.not_wrote_of_free hfree) fd _) fd).daemonFd _
      · exact h
  · exact h

/-- Writing the query to a quiet connection starts an exchange. -/
theorem ConnectionInv.writeQuery {s : World App} (h : ConnectionInv s) {t : ℕ}
    {failedAfter : Option ℕ} (hquiet : WritesToQuietConnection s (.write t failedAfter)) :
    ConnectionInv (writeQuery s t failedAfter) := by
  unfold AxiomDaemon.Protocol.writeQuery
  split
  · next app fd query ht =>
      simp only [WritesToQuietConnection, ht] at hquiet
      have hcrit : (s.threads t).Critical := by rw [ht]; trivial
      have hmutex := h.exclusive t hcrit
      have hnone : ∀ u app fd query, s.threads u ≠ .wrote app fd query := by
        intro u app fd query hu
        obtain rfl := h.not_wrote_of_critical hcrit hu
        rw [ht] at hu
        cases hu
      have hfailed {s : World App} (h : ConnectionInv s) (hmutex : s.mutex = some t) :
          ConnectionInv (s.setThread t (.received app none)) :=
        h.setThread (fun _ => hmutex) nofun nofun nofun
      split
      · next bytes c hbytes hc =>
          obtain ⟨hdaemon, hagent⟩ := hquiet c hc
          have hframe : bytes = frame query ∧ query.length < 2 ^ 32 := by
            unfold nrWriteMessage at hbytes
            split at hbytes
            · cases hbytes
            · next hlen =>
                refine ⟨(Option.some.inj hbytes).symm, ?_⟩
                exact Nat.lt_of_le_of_lt (Nat.not_lt.mp hlen) (by decide)
          have hmono : ∀ app' buf, AnswersFor s app' buf →
              AnswersFor { s with queries := (app, query) :: s.queries } app' buf := by
            rintro app' buf ⟨q, hq, ha⟩
            exact ⟨q, List.mem_cons_of_mem _ hq, ha⟩
          have hwritten : ConnectionInv
              { s with
                descriptors := Function.update s.descriptors fd
                  (some { c with toDaemon := c.toDaemon ++ bytes })
                queries := (app, query) :: s.queries } :=
            ⟨h.exclusive, fun u app' fd' query' hu => absurd hu (hnone u app' fd' query'),
              fun u app' buf hu => hmono app' buf (h.received u app' buf hu),
              fun u app' buf hu => hmono app' buf (h.replied u app' buf hu),
              fun app' buf hmem => hmono app' buf (h.applied app' buf hmem)⟩
          refine hwritten.setThread (fun _ => hmutex) ?_ nofun nofun
          intro app' fd' query' heq
          cases heq
          refine ⟨List.mem_cons_self, _, Function.update_self .., ?_⟩
          exact .inl ⟨by rw [hdaemon, List.nil_append]; exact hframe.1, hframe.2, hagent⟩
      · exact hfailed (h.setDescriptor hnone fd _) hmutex
      · exact hfailed h hmutex
  · exact h

/-- What is received in an exchange is the answer to its query. -/
theorem inExchange_receive {s : World App} {c : Connection} {query buf rest : List UInt8}
    (h : InExchange s c query) (hreceive : nrNetworkReceive c.toAgent = some (buf, rest)) :
    (query, buf) ∈ s.answers := by
  rcases h with ⟨_, _, hagent⟩ | ⟨_, reply, hagent, hlen, hmem⟩
  · rw [hagent] at hreceive
    simp [nrNetworkReceive, nrnRead, nrProtocolPreambleLength, readFull, Except.toOption]
      at hreceive
  · have hformula := nrNetworkReceive_messageWriterWrite reply []
    rw [List.append_nil, ← hagent, hreceive] at hformula
    split at hformula
    · cases hformula
    · obtain ⟨_, heq, hbuf⟩ := nrnRead_eq_some hformula.symm
      rw [Nat.mod_eq_of_lt (by omega)] at hbuf
      have hrest : buf = reply := by
        rw [List.append_nil] at heq
        have hlenEq := congrArg List.length heq
        rw [List.length_append] at hlenEq
        obtain rfl : rest = [] := List.length_eq_zero_iff.mp (by omega)
        rw [heq, List.append_nil]
      exact hrest ▸ hmem

theorem ConnectionInv.receiveReply {s : World App} (h : ConnectionInv s) (t : ℕ)
    (failedAfter : Option ℕ) : ConnectionInv (receiveReply s t failedAfter) := by
  unfold AxiomDaemon.Protocol.receiveReply
  split
  · next app fd query ht =>
      have hcrit : (s.threads t).Critical := by rw [ht]; trivial
      have hmutex := h.exclusive t hcrit
      obtain ⟨hquery, c, hc, hex⟩ := h.exchange t app fd query ht
      -- The thread leaves the exchange first; then the descriptor may change.
      have hleave (buf : Option (List UInt8))
          (hbuf : ∀ b, buf = some b → AnswersFor s app b) (c : Option Connection) :
          ConnectionInv ((s.setDescriptor fd c).setThread t (.received app buf)) := by
        have hthread : ConnectionInv (s.setThread t (.received app buf)) := by
          refine h.setThread (fun _ => hmutex) nofun ?_ nofun
          intro app' b heq
          cases heq
          exact hbuf b rfl
        apply hthread.setDescriptor
        intro u app' fd' query' hu
        rcases s.threads_setThread t u (.received app buf) with ⟨rfl, heq⟩ | ⟨hut, heq⟩ <;>
          rw [heq] at hu
        · cases hu
        · exact hut (h.not_wrote_of_critical hcrit hu)
      rw [hc]
      cases failedAfter with
      | none =>
          simp only
          cases hreceive : nrNetworkReceive c.toAgent with
          | none => exact h
          | some r =>
              obtain ⟨buf, rest⟩ := r
              apply hleave
              intro b hb
              obtain rfl := Option.some.inj hb
              exact ⟨query, hquery, inExchange_receive hex hreceive⟩
      | some n =>
          apply hleave
          intro b hb
          cases hb
  · exact h

theorem ConnectionInv.processReply {s : World App} (h : ConnectionInv s) (t : ℕ)
    (success : Bool) : ConnectionInv (processReply s t success) := by
  have hset {s : World App} (h : ConnectionInv s) (st : ThreadState App)
      (hst : st = .idle ∨ st = .closing) : ConnectionInv (s.setThread t st) := by
    rcases hst with rfl | rfl
    · exact h.setThread (fun hcrit => hcrit.elim) nofun nofun nofun
    · exact h.setThread (fun hcrit => hcrit.elim) nofun nofun nofun
  unfold AxiomDaemon.Protocol.processReply
  split
  · next app buf ht =>
      have hbuf := h.replied t app buf ht
      have hthread := hset h (if success then .idle else .closing) (by cases success <;> simp)
      refine ⟨hthread.exclusive, hthread.exchange, hthread.received, hthread.replied, ?_⟩
      intro app' buf' hmem
      rcases List.mem_cons.mp hmem with heq | hmem
      · cases heq
        exact hbuf
      · exact h.applied app' buf' hmem
  · exact hset h .closing (.inr rfl)
  · exact h

theorem ConnectionInv.closeConnection {s : World App} (h : ConnectionInv s) (t : ℕ) :
    ConnectionInv (closeConnection s t) := by
  have hset {s : World App} (h : ConnectionInv s) : ConnectionInv (s.setThread t .idle) :=
    h.setThread (fun hcrit => hcrit.elim) nofun nofun nofun
  unfold AxiomDaemon.Protocol.closeConnection
  split
  · next _ hfree =>
      split
      · exact (hset (h.setDescriptor (h.not_wrote_of_free hfree) _ none)).daemonFd none
      · exact hset h
  · exact h

/-- The daemon's answer turns a query under way into its reply under way. -/
theorem ConnectionInv.answerQuery {s : World App} (h : ConnectionInv s) (fd : ℕ)
    (reply : List UInt8) : ConnectionInv (answerQuery s fd reply) := by
  unfold AxiomDaemon.Protocol.answerQuery
  split
  · next c hc =>
      split
      · next msg rest hread =>
          split
          · next hlen =>
              have hmono : ∀ app buf, AnswersFor s app buf → AnswersFor
                  { s with answers := (msg.bytes, reply) :: s.answers } app buf := by
                rintro app buf ⟨q, hq, ha⟩
                exact ⟨q, hq, List.mem_cons_of_mem _ ha⟩
              refine ⟨h.exclusive, ?_, fun u app buf hu => hmono app buf (h.received u app buf hu),
                fun u app buf hu => hmono app buf (h.replied u app buf hu),
                fun app buf hmem => hmono app buf (h.applied app buf hmem)⟩
              intro u app fd' query hu
              obtain ⟨hquery, c', hc', hex⟩ := h.exchange u app fd' query hu
              refine ⟨hquery, ?_⟩
              by_cases hfd : fd' = fd
              · subst hfd
                obtain rfl : c = c' := Option.some.inj (hc.symm.trans hc')
                refine ⟨_, Function.update_self .., .inr ?_⟩
                rcases hex with ⟨hdaemon, hqlen, hagent⟩ | ⟨hdaemon, _⟩
                · -- The message read is the query itself.
                  by_cases hbig : maxMessageSize < query.length
                  · have herr := readMessage_frame_large hqlen hbig []
                    rw [List.append_nil, ← hdaemon, hread] at herr
                    cases herr
                  · have hok := readMessage_frame hqlen (Nat.not_lt.mp hbig) []
                    rw [List.append_nil, ← hdaemon, hread] at hok
                    injection hok with hok
                    obtain ⟨rfl, rfl⟩ := Prod.mk.inj hok
                    refine ⟨rfl, reply, ?_, hlen, List.mem_cons_self⟩
                    simp only [hagent, List.nil_append]
                    rfl
                · rw [hdaemon] at hread
                  simp [readMessage, readFull, msgHeaderSize] at hread
              · refine ⟨c', by rw [← hc']; exact Function.update_of_ne hfd .., ?_⟩
                rcases hex with hex | ⟨hdaemon, r, hagent, hr, hmem⟩
                · exact .inl hex
                · exact .inr ⟨hdaemon, r, hagent, hr, List.mem_cons_of_mem _ hmem⟩
          · exact h
      · exact h
  · exact h

theorem connectionInv_step {s : World App} {e : Event App} (h : ConnectionInv s)
    (hquiet : WritesToQuietConnection s e) : ConnectionInv (execEvent s e) := by
  cases e with
  | getDaemonFd t app opened => exact h.getDaemonFd t app opened
  | invalidQuery t =>
      simp only [execEvent]
      split
      · exact h.setThread (fun hcrit => hcrit.elim) nofun nofun nofun
      · exact h
  | lock t query =>
      simp only [execEvent]
      split
      · next app fd ht hfree =>
          have hfreeThreads : ∀ u, ¬ (s.threads u).Critical := by
            intro u hu
            rw [h.exclusive u hu] at hfree
            cases hfree
          have hlocked : ConnectionInv { s with mutex := some t } :=
            ⟨fun u hu => absurd hu (hfreeThreads u), h.exchange, h.received, h.replied, h.applied⟩
          exact hlocked.setThread (fun _ => rfl) nofun nofun nofun
      · exact h
  | write t failedAfter => exact h.writeQuery hquiet
  | receive t failedAfter => exact h.receiveReply t failedAfter
  | unlock t =>
      simp only [execEvent]
      split
      · next app buf ht =>
          have hcrit : (s.threads t).Critical := by rw [ht]; trivial
          have hset : ConnectionInv (s.setThread t (.replied app buf)) := h.setThread
            (fun hcrit => hcrit.elim) nofun nofun
            (fun app' b heq => by
              cases heq
              exact h.received t app b ht)
          refine ⟨?_, hset.exchange, hset.received, hset.replied, hset.applied⟩
          intro u hu
          change ((s.setThread t (.replied app buf)).threads u).Critical at hu
          rcases s.threads_setThread t u (.replied app buf) with ⟨rfl, heq⟩ | ⟨hut, heq⟩ <;>
            rw [heq] at hu
          · exact hu.elim
          · have hmutex := h.exclusive u hu
            rw [h.exclusive t hcrit] at hmutex
            exact absurd (Option.some.inj hmutex).symm hut
      · exact h
  | processReply t success => exact h.processReply t success
  | closeConnection t => exact h.closeConnection t
  | answer fd reply => exact h.answerQuery fd reply

/-- In every run in which a query is only ever written to a quiet connection,
every reply applied to an application is the daemon's answer to a query for
that application. -/
theorem replies_not_crossed_of_quiet (events : List (Event App))
    (hquiet : Along execEvent WritesToQuietConnection (initialWorld : World App) events) :
    Throughout execEvent RepliesNotCrossed (initialWorld : World App) events := by
  apply Throughout.imp fun s (h : ConnectionInv s) => h.applied
  exact throughout_of_along (fun s e h hg => connectionInv_step h hg) initialWorld_inv hquiet

end

/-! ### A crossed reply

Thread 0 queries for application 10 and gives up waiting; before it closes
the connection, thread 1, which has fetched the same descriptor, queries for
application 11 and reads the late reply. -/

def exchangeOf (t app : ℕ) (query reply : List UInt8) : List (Event ℕ) :=
  [.getDaemonFd t app (some 5), .lock t query, .write t none, .answer 5 reply,
    .receive t none, .unlock t, .processReply t true]

/-- Two exchanges one after the other stay apart. -/
theorem replies_not_crossed_two_exchanges :
    Throughout execEvent RepliesNotCrossed (initialWorld : World ℕ)
      (exchangeOf 0 10 [1] [2] ++ exchangeOf 1 11 [3] [4]) := by
  have hquiet (c : Connection) (h : some ⟨[], []⟩ = some c) : c.toDaemon = [] ∧ c.toAgent = [] := by
    cases h
    exact ⟨rfl, rfl⟩
  apply replies_not_crossed_of_quiet
  exact ⟨trivial, trivial, hquiet, trivial, trivial, trivial, trivial,
    trivial, trivial, hquiet, trivial, trivial, trivial, trivial, trivial⟩

def crossedRun : List (Event ℕ) :=
  [.getDaemonFd 0 10 (some 5), .getDaemonFd 1 11 none,
    .lock 0 [1], .write 0 none, .receive 0 (some 0), .unlock 0,
    .answer 5 [2],
    .lock 1 [3], .write 1 none, .receive 1 none, .unlock 1, .processReply 1 true]

theorem reply_crossed_after_timeout :
    (runFrom execEvent (initialWorld : World ℕ) crossedRun).applied = [(11, [2])] ∧
      (runFrom execEvent (initialWorld : World ℕ) crossedRun).answers = [([1], [2])] ∧
      (runFrom execEvent (initialWorld : World ℕ) crossedRun).queries = [(11, [3]), (10, [1])] ∧
      ¬ Throughout execEvent RepliesNotCrossed (initialWorld : World ℕ) crossedRun := by
  have happlied : (runFrom execEvent (initialWorld : World ℕ) crossedRun).applied =
      [(11, [2])] := rfl
  have hanswers : (runFrom execEvent (initialWorld : World ℕ) crossedRun).answers =
      [([1], [2])] := rfl
  have hqueries : (runFrom execEvent (initialWorld : World ℕ) crossedRun).queries =
      [(11, [3]), (10, [1])] := rfl
  refine ⟨happlied, hanswers, hqueries, ?_⟩
  intro h
  obtain ⟨query, hquery, hanswer⟩ := h.last 11 [2] (by rw [happlied]; exact List.mem_cons_self)
  rw [hanswers] at hanswer
  rw [hqueries] at hquery
  -- The only answer is to the query `[1]`, which was not for application 11.
  obtain rfl : query = [1] := by simpa using hanswer
  simp at hquery

end AxiomDaemon.Protocol

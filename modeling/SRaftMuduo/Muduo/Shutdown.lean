import SRaftMuduo.Muduo.OutputStream
import Mathlib.Logic.Function.Basic

namespace SRaftMuduo

/-- A call of `send` by its number and its string. -/
structure SendCall where
  id : Nat
  data : CString
  deriving DecidableEq

/-- A functor in the queue of the loop. -/
inductive Job
  | sendInLoop (call : SendCall)
  | shutdownInLoop
  deriving DecidableEq

/-- Where another thread stands in `send` or `shutdown`: past the test of `state_`, or past
the assignment to it. -/
inductive Inside
  | idle
  | sending (call : SendCall)
  | stopping
  | stopped
  deriving DecidableEq

/-- A connection that is up, the functors queued for its loop and the threads that use it.
`returned`, `promised` and `accepted` record the calls of `send` that returned, those that
had returned at a call of `shutdown`, and those that reached `sendInLoop` before
`ShutdownWrite` while the connection was not down, with the bytes found there. -/
structure Session (T : Type*) where
  conn : TcpConnection
  queue : List Job
  caller : T → Inside
  next : Nat
  returned : List SendCall
  promised : List SendCall
  accepted : List SendCall

/-- A step of another thread `t`, or of the loop thread with what the kernel answers.
`functor` comes with the bytes found behind the pointer of a queued `sendInLoop`. -/
inductive SessionEvent (T : Type*)
  | send (t : T) (data : CString)
  | shutdown (t : T)
  | setState (t : T)
  | queue (t : T)
  | loopSend (data : CString) (result : WriteResult)
  | loopShutdown
  | functor (bytes : CString) (result : WriteResult)
  | handleRead (read : ReadResult)
  | handleWrite (result : WriteResult)
  | handleClose

/-- No error but `EWOULDBLOCK`. -/
def WriteResult.calm : WriteResult → Bool
  | .failed errno => errno = .EWOULDBLOCK
  | .wrote _ => true

namespace Session

variable {T : Type*}

def established (callbacks : Callbacks) : Session T :=
  ⟨(TcpConnection.new callbacks).connectEstablished,[],fun _ => .idle,0,[],[],[]⟩

/-- `ShutdownWrite` has not been called. -/
def Unshut (s : Session T) : Prop := Effect.ShutdownWrite ∉ s.conn.trace

instance (s : Session T) : Decidable s.Unshut := inferInstanceAs (Decidable (¬_))

/-- `handleClose` has run. -/
def Closed (s : Session T) : Prop := Effect.closeCallback ∈ s.conn.trace

instance (s : Session T) : Decidable s.Closed := inferInstanceAs (Decidable (_ ∈ _))

/-- What the claim asks of the kernel: until `ShutdownWrite` no write fails for another
reason than a full socket. -/
def calm (s : Session T) : SessionEvent T → Prop
  | .loopSend _ result | .functor _ result | .handleWrite result =>
    s.Unshut → result.calm = true
  | _ => True

/-- The steps that call `ShutdownWrite`: `shutdownInLoop` while the channel does not wait for
the socket, and a `handleWrite` that writes out the buffer of a connection shutting down. -/
def shuts (s : Session T) : SessionEvent T → Prop
  | .functor _ _ =>
    s.queue.head? = some .shutdownInLoop ∧ s.conn.channel.IsWriting = false
  | .loopShutdown => s.conn.connected = true ∧ s.conn.channel.IsWriting = false
  | .handleWrite result =>
    s.conn.state = .kDisconnecting ∧ s.conn.channel.IsWriting = true ∧
      result = .wrote s.conn.outputBuffer.length
  | _ => False

/-- What is in the buffer when the step calls `ShutdownWrite`. -/
def left (s : Session T) : SessionEvent T → CString
  | .handleWrite _ => []
  | _ => s.conn.outputBuffer

/-- The calls that had returned at the last call of `shutdown`, which may be this step. -/
def promisedBy (s : Session T) : SessionEvent T → List SendCall
  | .shutdown _ | .loopShutdown => s.returned
  | _ => s.promised

/-- What the code needs of the order of the steps: at `ShutdownWrite`, and at a `shutdown`
after it, the promised calls have reached `sendInLoop`, each with its own string, before the
connection was down; and a connection that has been closed leaves nothing in the buffer. -/
def careful (s : Session T) (e : SessionEvent T) : Prop :=
  (s.shuts e ∨ ¬s.Unshut → ∀ call ∈ s.promisedBy e, call ∈ s.accepted) ∧
    (s.shuts e → s.Closed → s.left e = [])

variable [DecidableEq T]

def setCaller (s : Session T) (t : T) (inside : Inside) : Session T :=
  {s with caller := Function.update s.caller t inside}

/-- `sendInLoop` gets the string of a call. -/
def accept (s : Session T) (call : SendCall) : Session T :=
  if s.Unshut ∧ s.conn.state ≠ .kDisconnected then {s with accepted := s.accepted++[call]}
  else s

/-- The functor at the head of the queue runs. -/
def runFunctor (s : Session T) (bytes : CString) (result : WriteResult) : Option (Session T) :=
  match s.queue with
  | [] => none
  | .shutdownInLoop::queue => some {s with conn := s.conn.shutdownInLoop, queue := queue}
  | .sendInLoop call::queue =>
    if bytes.length = call.data.length ∧ result.fits bytes.length = true then
      some {s.accept ⟨call.id,bytes⟩ with
        conn := s.conn.sendInLoop bytes result, queue := queue}
    else none

def step (s : Session T) : SessionEvent T → Option (Session T)
  | .send t data =>
    if s.caller t = .idle then
      some (if s.conn.connected then
        {s.setCaller t (.sending ⟨s.next,data⟩) with next := s.next+1}
      else s)
    else none
  | .shutdown t =>
    if s.caller t = .idle then
      let s := {s with promised := s.returned}
      some (if s.conn.connected then s.setCaller t .stopping else s)
    else none
  | .setState t =>
    if s.caller t = .stopping then
      some {s.setCaller t .stopped with conn := s.conn.setState .kDisconnecting}
    else none
  | .queue t =>
    match s.caller t with
    | .sending call =>
      some {s.setCaller t .idle with
        queue := s.queue++[.sendInLoop call], returned := s.returned++[call]}
    | .stopped => some {s.setCaller t .idle with queue := s.queue++[.shutdownInLoop]}
    | _ => none
  | .loopSend data result =>
    if result.fits data.length then
      let call : SendCall := ⟨s.next,data⟩
      some (if s.conn.connected then
        {s.accept call with
          conn := s.conn.sendInLoop data result
          next := s.next+1
          returned := s.returned++[call]}
      else s)
    else none
  | .loopShutdown =>
    let s := {s with promised := s.returned}
    some (if s.conn.connected then {s with conn := s.conn.shutdown.shutdownInLoop} else s)
  | .functor bytes result => s.runFunctor bytes result
  | .handleRead read => some {s with conn := s.conn.handleRead read}
  | .handleWrite result =>
    if result.fits s.conn.outputBuffer.length then
      some {s with conn := s.conn.handleWrite result}
    else none
  | .handleClose => some {s with conn := s.conn.handleClose}

def machine (T : Type*) [DecidableEq T] (callbacks : Callbacks) :
    Machine (Session T) (SessionEvent T) :=
  ⟨fun s => s = established callbacks,step⟩

end Session

/-- The bytes written contain the strings of all the given calls, one after another. -/
def Delivered (trace : List Effect) (calls : List SendCall) : Prop :=
  ∃ order : List SendCall, (order.flatMap SendCall.data) <+: trace.flatMap Effect.bytes ∧
    ∀ call ∈ calls, call ∈ order

/-- Whenever `ShutdownWrite` is called, the strings of the given calls have been written. -/
def Graceful (trace : List Effect) (calls : List SendCall) : Prop :=
  ∀ before after, trace = before++Effect.ShutdownWrite::after → Delivered before calls

section

variable {trace es : List Effect} {calls : List SendCall}

theorem Delivered.append (h : Delivered trace calls) (es : List Effect) :
    Delivered (trace++es) calls := by
  obtain ⟨order,hpre,hmem⟩ := h
  refine ⟨order,hpre.trans ?_,hmem⟩
  rw [List.flatMap_append]
  exact List.prefix_append _ _

theorem Graceful.of_unshut (h : Effect.ShutdownWrite ∉ trace) : Graceful trace calls := by
  intro before after he
  rw [he] at h
  exact absurd (by simp) h

theorem Graceful.delivered (h : Graceful trace calls) (hs : Effect.ShutdownWrite ∈ trace) :
    Delivered trace calls := by
  obtain ⟨before,after,he⟩ := List.append_of_mem hs
  rw [he]
  exact (h before after he).append _

/-- A step may call `ShutdownWrite` once everything has been written. -/
theorem Graceful.append (h : Graceful trace calls)
    (hd : Effect.ShutdownWrite ∈ es → Delivered trace calls) : Graceful (trace++es) calls := by
  intro before after he
  cases List.append_eq_append_iff.mp he with
  | inl hlong =>
    obtain ⟨es1,hbefore,hes⟩ := hlong
    rw [hbefore]
    exact (hd (by rw [hes]; simp)).append _
  | inr hshort =>
    obtain ⟨rest,htrace,hrest⟩ := hshort
    cases rest with
    | nil =>
      rw [List.append_nil] at htrace
      rw [← htrace]
      exact hd (by rw [← List.nil_append es,← hrest]; simp)
    | cons e rest =>
      obtain ⟨rfl,-⟩ := List.cons.inj hrest
      exact h before rest htrace

theorem Graceful.mono {calls' : List SendCall} (h : Graceful trace calls)
    (hsub : ∀ call ∈ calls', call ∈ calls) : Graceful trace calls' := by
  intro before after he
  obtain ⟨order,hpre,hmem⟩ := h before after he
  exact ⟨order,hpre,fun call hc => hmem call (hsub call hc)⟩

end

namespace Session

variable {T : Type*}

/-- What holds between any two steps: what `sendInLoop` was given is written or waits, the
channel waits for the socket as long as there is a backlog and no close, and whatever reached
`sendInLoop` in time is written at `ShutdownWrite`. -/
structure Kept (s : Session T) : Prop where
  streams : s.Unshut → ∃ q, s.conn.Streams q ∧ q.entered = s.accepted.flatMap SendCall.data
  interest : ¬s.Closed → s.conn.Interest
  graceful : Graceful s.conn.trace s.accepted
  kept : ¬s.Unshut → ∀ call ∈ s.promised, call ∈ s.accepted

variable {s s' t : Session T} {conn : TcpConnection}

theorem Kept.established (callbacks : Callbacks) :
    Kept (established callbacks : Session T) := by
  have hno : Unshut (Session.established callbacks : Session T) := by
    simp [Unshut,Session.established,TcpConnection.connectEstablished,TcpConnection.setEvents,
      TcpConnection.setState,TcpConnection.emit,TcpConnection.new]
  exact ⟨fun _ => ⟨_,(TcpConnection.Streams.new callbacks).connectEstablished,rfl⟩,
    fun _ => (TcpConnection.Interest.new callbacks).connectEstablished,
    .of_unshut hno,fun h => absurd hno h⟩

/-- Steps that touch neither the connection nor what `sendInLoop` was given. -/
theorem Kept.same (h : Kept s) (hconn : t.conn = s.conn) (hacc : t.accepted = s.accepted)
    (hkept : ¬s.Unshut → ∀ call ∈ t.promised, call ∈ s.accepted) : Kept t := by
  refine ⟨?_,?_,?_,?_⟩
  · rw [Unshut,hconn,hacc]
    exact h.streams
  · rw [Closed,hconn]
    exact h.interest
  · rw [hconn,hacc]
    exact h.graceful
  · rw [Unshut,hconn,hacc]
    exact hkept

/-- A step of the connection that does not shut the socket down and keeps what was passed in. -/
theorem Kept.steady (h : Kept s)
    (htrace : ∃ es, conn.trace = s.conn.trace++es ∧ Effect.ShutdownWrite ∉ es)
    (hinterest : Effect.closeCallback ∉ conn.trace → conn.Interest)
    (hstream : s.Unshut → ∀ q, s.conn.Streams q →
      ∃ q', conn.Streams q' ∧ q'.entered = q.entered) :
    Kept {s with conn := conn} := by
  obtain ⟨es,he,hno⟩ := htrace
  have hunshut : Unshut {s with conn := conn} ↔ s.Unshut := by
    show Effect.ShutdownWrite ∉ conn.trace ↔ Effect.ShutdownWrite ∉ s.conn.trace
    simp [he,hno]
  refine ⟨?streams,hinterest,?graceful,?kept⟩
  case streams =>
    intro hu
    obtain ⟨q,hq,hent⟩ := h.streams (hunshut.mp hu)
    obtain ⟨q',hq',hent'⟩ := hstream (hunshut.mp hu) q hq
    exact ⟨q',hq',hent'.trans hent⟩
  case graceful =>
    show Graceful conn.trace s.accepted
    rw [he]
    exact h.graceful.append fun hin => absurd hin hno
  case kept => exact fun hu => h.kept (hunshut.not.mp hu)

/-- Interest stays with a step that makes no call about the connection itself. -/
theorem Kept.emits_interest (h : Kept s) {p : Effect → Bool}
    (he : TcpConnection.Emits p s.conn conn) (hinterest : s.conn.Interest → conn.Interest)
    (hclosed : Effect.closeCallback ∉ conn.trace) : conn.Interest := by
  obtain ⟨es,ht,-⟩ := he.trace
  refine hinterest (h.interest fun hin => hclosed ?_)
  rw [ht]
  exact List.mem_append_left _ hin

/-- `ShutdownWrite` on an empty buffer: all that reached `sendInLoop` has been written. -/
theorem Kept.shut (h : Kept s) (hb : s.conn.outputBuffer = [])
    (hp : ∀ call ∈ s.promised, call ∈ s.accepted) :
    Kept {s with conn := s.conn.emit .ShutdownWrite} where
  streams hu := absurd hu (by simp [Unshut,TcpConnection.emit])
  interest hc := by
    refine h.interest fun hin => hc ?_
    exact List.mem_append_left _ hin
  graceful := h.graceful.append fun _ => by
    by_cases hu : s.Unshut
    · obtain ⟨q,hq,he⟩ := h.streams hu
      refine ⟨s.accepted,?_,fun _ hc => hc⟩
      have hsent : s.conn.sent = s.accepted.flatMap SendCall.data := by
        rw [← he,← q.balanced,← hq.left,← hq.waiting,hb,List.append_nil]
      rw [← hsent]
      exact List.prefix_rfl
    · exact h.graceful.delivered (Classical.not_not.mp hu)
  kept _ := hp

/-- While no close has come in between, a channel that does not wait for the socket has an
empty buffer. -/
theorem Kept.shutdownInLoop (h : Kept s)
    (hp : s.conn.channel.IsWriting = false → ∀ call ∈ s.promised, call ∈ s.accepted)
    (hc : s.conn.channel.IsWriting = false → s.Closed → s.conn.outputBuffer = []) :
    Kept {s with conn := s.conn.shutdownInLoop} := by
  unfold TcpConnection.shutdownInLoop
  split_ifs with hw
  · exact h
  · have hw : s.conn.channel.IsWriting = false := by simpa using hw
    refine h.shut ?_ (hp hw)
    by_cases hclosed : s.Closed
    · exact hc hw hclosed
    · have hi := h.interest hclosed
      apply Classical.byContradiction
      intro hb
      exact absurd ((hi.mpr hb).symm.trans hw) (by decide)

theorem Kept.setState (h : Kept s) (state : StateE) :
    Kept {s with conn := s.conn.setState state} := by
  refine h.steady ⟨[.setState state],rfl,by simp⟩ (fun hc => ?_)
    fun _ q hq => ⟨q,hq.setState state,rfl⟩
  refine h.interest fun hin => hc ?_
  exact List.mem_append_left _ hin

theorem Kept.handleClose (h : Kept s) : Kept {s with conn := s.conn.handleClose} := by
  refine h.steady ⟨[.setState .kDisconnected]++[.connectionCallback false,.closeCallback],?_,
    by simp⟩ (fun hc => absurd ?_ hc) fun _ q hq => ⟨q,hq.handleClose,rfl⟩
  · rw [TcpConnection.handleClose_trace,List.append_assoc]
  · rw [TcpConnection.handleClose_trace]
    simp

theorem Kept.handleRead (h : Kept s) (read : ReadResult) :
    Kept {s with conn := s.conn.handleRead read} := by
  cases read with
  | data =>
    have he : TcpConnection.Emits (fun _ => true) s.conn (s.conn.emit .messageCallback) :=
      .emit _ rfl
    exact h.steady ⟨[.messageCallback],rfl,by simp⟩ (h.emits_interest he id)
      fun _ q hq => ⟨q,hq.emit rfl,rfl⟩
  | eof => exact h.handleClose
  | error => exact h

/-- The first bytes of the buffer are written, and some are left. -/
theorem Kept.wrotePart (h : Kept s) (hw : s.conn.channel.IsWriting = true) {n : Nat}
    (he : (s.conn.written n).outputBuffer ≠ []) : Kept {s with conn := s.conn.written n} :=
  h.steady ⟨[.write (s.conn.outputBuffer.take n)],rfl,by simp⟩
    (fun _ => ⟨fun _ => he,fun _ => hw⟩) fun _ q hq => ⟨q.pop n,hq.written n,rfl⟩

/-- The buffer has been written out, and the channel does not wait any more. -/
theorem Kept.wroteOut (h : Kept s) {n : Nat} (he : (s.conn.written n).outputBuffer = []) :
    Kept {s with conn := ((s.conn.written n).setEvents
      (s.conn.written n).channel.DisableWrite).queueWriteComplete} := by
  have hout := TcpConnection.queueWriteComplete_emits ((s.conn.written n).setEvents
    (s.conn.written n).channel.DisableWrite)
  obtain ⟨es,ht,hes⟩ := hout.trace
  refine h.steady ⟨[.write (s.conn.outputBuffer.take n)]++es,?_,?_⟩ (fun _ => ?_) fun _ q hq =>
    ⟨q.pop n,((hq.written n).setEvents _).queueWriteComplete,rfl⟩
  · rw [ht,← List.append_assoc]
    rfl
  · intro hin
    cases List.mem_append.mp hin with
    | inl hw => exact absurd (List.mem_singleton.mp hw) (by simp)
    | inr hq => cases hes _ hq
  · have hoff : TcpConnection.Interest ((s.conn.written n).setEvents
        (s.conn.written n).channel.DisableWrite) := by
      show (s.conn.written n).channel.DisableWrite.update.IsWriting = true ↔
        (s.conn.written n).outputBuffer ≠ []
      rw [Channel.update_IsWriting,Channel.DisableWrite_IsWriting,he]
      simp
    exact hoff.queueWriteComplete

theorem Kept.handleWrite (h : Kept s) {result : WriteResult}
    (hfit : result.fits s.conn.outputBuffer.length = true)
    (hp : s.shuts (.handleWrite result) → ∀ call ∈ s.promised, call ∈ s.accepted) :
    Kept {s with conn := s.conn.handleWrite result} := by
  unfold TcpConnection.handleWrite
  split_ifs with hw
  · cases result with
    | failed errno => exact h
    | wrote n =>
      dsimp only
      split_ifs with hn he
      · have hlen : n = s.conn.outputBuffer.length := by
          have hdrop : (s.conn.outputBuffer.drop n).length = 0 := he
          rw [List.length_drop] at hdrop
          have hle : n ≤ s.conn.outputBuffer.length := by simpa [WriteResult.fits] using hfit
          omega
        have hbuf : (s.conn.written n).outputBuffer = [] := List.length_eq_zero_iff.mp he
        let conn' := ((s.conn.written n).setEvents
          (s.conn.written n).channel.DisableWrite).queueWriteComplete
        have h' : Kept {s with conn := conn'} := h.wroteOut hbuf
        have hstate : conn'.state = s.conn.state :=
          (TcpConnection.queueWriteComplete_emits _).state
        show Kept {s with conn := (s.conn.written n).drained}
        unfold TcpConnection.drained
        dsimp only
        split_ifs with hd
        · refine h'.shutdownInLoop (fun _ => hp ⟨hstate ▸ hd,hw,by rw [hlen]⟩) fun _ _ => ?_
          show conn'.outputBuffer = []
          unfold conn' TcpConnection.queueWriteComplete
          split_ifs <;> exact hbuf
        · exact h'
      · exact h.wrotePart hw fun hb => he (List.length_eq_zero_iff.mpr hb)
      · exact h
  · exact h

/-- What a call of `send` hands to a connection that is not down is written or waits. -/
theorem Kept.sendInLoop (h : Kept s) (call : SendCall) {result : WriteResult}
    (hm : s.Unshut → result.calm = true) :
    Kept {s.accept call with conn := s.conn.sendInLoop call.data result} := by
  have hemit := TcpConnection.sendInLoop_emits s.conn call.data result
  obtain ⟨es,he,hout⟩ := hemit.trace
  have hno : Effect.ShutdownWrite ∉ es := fun hin => by cases hout _ hin
  have hinterest := h.emits_interest hemit fun hi => hi.sendInLoop
  by_cases ha : s.Unshut ∧ s.conn.state ≠ .kDisconnected
  · obtain ⟨hu,hs⟩ := ha
    have hmild : result.mild = true := by
      have hcalm := hm hu
      cases result with
      | wrote n => rfl
      | failed errno => cases errno <;> first | rfl | cases hcalm
    have hu' : Effect.ShutdownWrite ∉ (s.conn.sendInLoop call.data result).trace := by
      rw [he]
      exact fun hin => (List.mem_append.mp hin).elim hu hno
    rw [accept,if_pos ⟨hu,hs⟩]
    refine ⟨fun _ => ?_,hinterest,.of_unshut hu',fun hn => absurd hu' hn⟩
    obtain ⟨q,hq,hent⟩ := h.streams hu
    obtain ⟨q',hq',hent'⟩ := hq.sendInLoop call.data hs hmild
    refine ⟨q',hq',?_⟩
    rw [List.flatMap_append,hent',hent]
    simp
  · rw [accept,if_neg ha]
    refine h.steady ⟨es,he,hno⟩ hinterest fun hu q hq => ⟨q,?_,rfl⟩
    have hs : s.conn.state = .kDisconnected := Classical.not_not.mp fun hs => ha ⟨hu,hs⟩
    rwa [TcpConnection.sendInLoop,if_pos hs]

theorem Kept.functor (h : Kept s) {bytes : CString} {result : WriteResult}
    (hm : s.Unshut → result.calm = true) (hc : s.careful (.functor bytes result))
    (ht : s.runFunctor bytes result = some t) : Kept t := by
  unfold runFunctor at ht
  split at ht
  · cases ht
  · next queue hq =>
    obtain rfl := Option.some.inj ht
    have hshuts (hw : s.conn.channel.IsWriting = false) : s.shuts (.functor bytes result) :=
      ⟨by rw [hq]; rfl,hw⟩
    have hk : Kept {s with conn := s.conn.shutdownInLoop} :=
      h.shutdownInLoop (fun hw => hc.1 (.inl (hshuts hw))) fun hw => hc.2 (hshuts hw)
    exact hk.same rfl rfl hk.kept
  · next call queue hq =>
    obtain ⟨-,ht⟩ := Option.ite_none_right_eq_some.mp ht
    obtain rfl := Option.some.inj ht
    have hk := h.sendInLoop ⟨call.id,bytes⟩ hm
    exact hk.same rfl rfl hk.kept

/-- A call of `shutdown` promises what has returned. -/
theorem Kept.promise (h : Kept s)
    (hp : ¬s.Unshut → ∀ call ∈ s.returned, call ∈ s.accepted) :
    Kept {s with promised := s.returned} :=
  h.same rfl rfl hp

variable [DecidableEq T] {e : SessionEvent T}

theorem Kept.step (h : Kept s) (hm : s.calm e) (hc : s.careful e) (ht : s.step e = some t) :
    Kept t := by
  cases e with
  | send u data =>
    obtain ⟨-,ht⟩ := Option.ite_none_right_eq_some.mp ht
    obtain rfl := Option.some.inj ht
    split_ifs
    · exact h.same rfl rfl h.kept
    · exact h
  | shutdown u =>
    obtain ⟨-,ht⟩ := Option.ite_none_right_eq_some.mp ht
    obtain rfl := Option.some.inj ht
    have hk := h.promise fun hu => hc.1 (.inr hu)
    dsimp only
    split_ifs
    · exact hk.same rfl rfl hk.kept
    · exact hk
  | setState u =>
    obtain ⟨-,ht⟩ := Option.ite_none_right_eq_some.mp ht
    obtain rfl := Option.some.inj ht
    have hk := h.setState .kDisconnecting
    exact hk.same rfl rfl hk.kept
  | queue u =>
    rw [Session.step] at ht
    split at ht
    · obtain rfl := Option.some.inj ht
      exact h.same rfl rfl h.kept
    · obtain rfl := Option.some.inj ht
      exact h.same rfl rfl h.kept
    · cases ht
  | loopSend data result =>
    obtain ⟨-,ht⟩ := Option.ite_none_right_eq_some.mp ht
    obtain rfl := Option.some.inj ht
    split_ifs
    · have hk := h.sendInLoop ⟨s.next,data⟩ hm
      exact hk.same rfl rfl hk.kept
    · exact h
  | loopShutdown =>
    obtain rfl := Option.some.inj ht
    have hk := h.promise fun hu => hc.1 (.inr hu)
    dsimp only
    split_ifs with hup
    · have hstate : s.conn.state = .kConnected := by simpa [TcpConnection.connected] using hup
      have hshut : s.conn.shutdown = s.conn.setState .kDisconnecting := if_pos hstate
      rw [hshut]
      refine (hk.setState .kDisconnecting).shutdownInLoop
        (fun hw => hc.1 (.inl ⟨hup,hw⟩)) fun hw hclosed => hc.2 ⟨hup,hw⟩ ?_
      cases List.mem_append.mp hclosed with
      | inl hold => exact hold
      | inr hnew => exact absurd (List.mem_singleton.mp hnew) (by simp)
    · exact hk
  | functor bytes result => exact h.functor hm hc ht
  | handleRead read =>
    obtain rfl := Option.some.inj ht
    exact h.handleRead read
  | handleWrite result =>
    obtain ⟨hfit,ht⟩ := Option.ite_none_right_eq_some.mp ht
    obtain rfl := Option.some.inj ht
    exact h.handleWrite hfit fun hs => hc.1 (.inl hs)
  | handleClose =>
    obtain rfl := Option.some.inj ht
    exact h.handleClose

end Session

section

variable {T : Type*} (s : Session T)

instance : (e : SessionEvent T) → Decidable (s.calm e)
  | .loopSend _ _ | .functor _ _ | .handleWrite _ => inferInstanceAs (Decidable (_ → _))
  | .send _ _ | .shutdown _ | .setState _ | .queue _ | .loopShutdown | .handleRead _
  | .handleClose => .isTrue trivial

instance : (e : SessionEvent T) → Decidable (s.shuts e)
  | .functor _ _ | .loopShutdown | .handleWrite _ => inferInstanceAs (Decidable (_ ∧ _))
  | .send _ _ | .shutdown _ | .setState _ | .queue _ | .loopSend _ _ | .handleRead _
  | .handleClose => .isFalse id

instance (e : SessionEvent T) : Decidable (s.careful e) := inferInstanceAs (Decidable (_ ∧ _))

end

end SRaftMuduo

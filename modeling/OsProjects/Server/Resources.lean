import OsProjects.Server.Delivery
import OsProjects.Server.Requests

/-!
# Resources of a session

A session that is served by `read_request` and `write_reply` releases its socket
and its file only if it comes to an early end.  A reply that is sent in full
leaves the socket open, and a chunk that cannot be written leaves the file open.
-/

namespace OsProjects.Server

open Library.Program Library.Bytes

namespace Event

@[simp] def closesSocket (fd : ℤ) : Event → Bool
  | .close client => client.socket = fd
  | _ => false

@[simp] def closesFile : Event → Bool
  | .fclose => true
  | _ => false

@[simp] def opensFile : Event → Bool
  | .fopen _ opened => opened
  | _ => false

@[simp] def AcceptsRequest : Event → Prop
  | .getFilename result => result ≠ -1
  | _ => False

@[simp] def FillsBuffer : Event → Prop
  | .read _ count result => result = count
  | _ => False

end Event

/-- The socket `fd` has been closed once and every file that was opened has been
closed. -/
structure Released (fd : ℤ) (t : Connection) : Prop where
  socket : t.client.socket = -1
  socketClosed : t.trace.countP (Event.closesSocket fd) = 1
  fileClosed : t.trace.countP Event.closesFile = t.trace.countP Event.opensFile

/-- No read fills the buffer, and the request is not accepted, or there is no
file to be sent and the header cannot be written. -/
def EndsEarly (trace : List Event) : Prop :=
  ¬ (∃ e ∈ trace, e.FillsBuffer) ∧ (¬ (∃ e ∈ trace, e.AcceptsRequest) ∨
    ¬ (∃ e ∈ trace, e.opensFile) ∧ ∃ e ∈ trace, e.IsWriteError)

/-! ## The calls that matter -/

/-- The calls on which these properties depend. -/
@[simp] def Event.isMark : Event → Bool
  | .read _ count result => result = count
  | .getFilename result => result ≠ -1
  | .fopen _ opened => opened
  | .fclose => true
  | .write _ _ result => result = -1
  | .close _ => true
  | _ => false

def marks (trace : List Event) : List Event := trace.filter Event.isMark

section Marks

variable {events : List Event} (trace : List Event)

theorem countP_marks {p : Event → Bool} (hp : ∀ e, p e → e.isMark) :
    (marks trace).countP p = trace.countP p := by
  rw [marks, List.countP_filter]
  refine List.countP_congr fun e _ ↦ ?_
  simpa using hp e

theorem exists_mem_marks {p : Event → Prop} (hp : ∀ e, p e → e.isMark) :
    (∃ e ∈ marks trace, p e) ↔ ∃ e ∈ trace, p e := by
  constructor
  · rintro ⟨e, he, hpe⟩
    exact ⟨e, (List.mem_filter.mp he).1, hpe⟩
  · rintro ⟨e, he, hpe⟩
    exact ⟨e, List.mem_filter.mpr ⟨he, hp e hpe⟩, hpe⟩

theorem Event.FillsBuffer.isMark {e : Event} (h : e.FillsBuffer) : e.isMark := by
  cases e with
  | read pos count result => exact decide_eq_true h
  | _ => cases h

theorem Event.AcceptsRequest.isMark {e : Event} (h : e.AcceptsRequest) : e.isMark := by
  cases e with
  | getFilename result => exact decide_eq_true h
  | _ => cases h

theorem Event.IsWriteError.isMark {e : Event} (h : e.IsWriteError) : e.isMark := by
  cases e with
  | write pos count result => exact decide_eq_true h
  | _ => cases h

theorem Event.isMark_of_opensFile (e : Event) (h : e.opensFile) : e.isMark := by
  cases e with
  | fopen request opened => exact h
  | _ => cases h

theorem Event.isMark_of_closesFile (e : Event) (h : e.closesFile) : e.isMark := by
  cases e with
  | fclose => rfl
  | _ => cases h

theorem Event.isMark_of_closesSocket {fd : ℤ} (e : Event) (h : e.closesSocket fd) : e.isMark := by
  cases e with
  | close client => rfl
  | _ => cases h

theorem endsEarly_marks : EndsEarly (marks trace) ↔ EndsEarly trace := by
  rw [EndsEarly, exists_mem_marks trace fun _ ↦ Event.FillsBuffer.isMark,
    exists_mem_marks trace fun _ ↦ Event.AcceptsRequest.isMark,
    exists_mem_marks trace Event.isMark_of_opensFile,
    exists_mem_marks trace fun _ ↦ Event.IsWriteError.isMark, EndsEarly]

theorem released_iff_marks {fd : ℤ} {t : Connection} : Released fd t ↔ t.client.socket = -1 ∧
    (marks t.trace).countP (Event.closesSocket fd) = 1 ∧
    (marks t.trace).countP Event.closesFile = (marks t.trace).countP Event.opensFile := by
  rw [countP_marks _ Event.isMark_of_closesSocket, countP_marks _ Event.isMark_of_closesFile,
    countP_marks _ Event.isMark_of_opensFile]
  exact ⟨fun h ↦ ⟨h.socket, h.socketClosed, h.fileClosed⟩, fun h ↦ ⟨h.1, h.2.1, h.2.2⟩⟩

variable {trace}

theorem marks_cons (e : Event) :
    marks (e :: trace) = if e.isMark then e :: marks trace else marks trace :=
  List.filter_cons

theorem marks_append : marks (events ++ trace) = marks events ++ marks trace :=
  List.filter_append ..

theorem marks_of_isRequest (h : ∀ e ∈ trace, e.IsRequest) : marks trace = [] := by
  refine List.filter_eq_nil_iff.mpr fun e he ↦ ?_
  have hrequest := h e he
  cases e with
  | read pos count result => exact fun hmark ↦ hrequest.2.ne (of_decide_eq_true hmark)
  | getFilename result => exact fun hmark ↦ of_decide_eq_true hmark hrequest
  | headerComplete length => exact Bool.false_ne_true
  | _ => cases hrequest

theorem marks_of_isTransfer (h : ∀ e ∈ events, e.IsTransfer) : marks events = [] := by
  refine List.filter_eq_nil_iff.mpr fun e he ↦ ?_
  have htransfer := h e he
  cases e with
  | write pos count result =>
      intro hmark
      have hresult : result = -1 := of_decide_eq_true hmark
      have hnonneg := htransfer.2
      omega
  | fread count result => exact Bool.false_ne_true
  | _ => cases htransfer

end Marks

/-! ## Sessions -/

section Session

variable {env : Environment} {fd : ℤ} {s t u : Connection}

theorem released_iff_endsEarly_marks : (Released fd t ↔ EndsEarly t.trace) ↔ ((t.client.socket = -1 ∧
    (marks t.trace).countP (Event.closesSocket fd) = 1 ∧
    (marks t.trace).countP Event.closesFile = (marks t.trace).countP Event.opensFile) ↔
      EndsEarly (marks t.trace)) := by
  rw [released_iff_marks, endsEarly_marks]

theorem marks_accepting (h : Accepting env fd t) : t.client.socket = fd ∧ ∃ parsed, parsed ≠ -1 ∧
    ((t.client.file = none ∧ marks t.trace = [.getFilename parsed]) ∨
      t.client.file.isSome ∧ ∃ request,
        marks t.trace = [.fopen request true, .getFilename parsed]) := by
  obtain ⟨s, request, parsed, hreading, hparsed, hswitch⟩ := h
  have hreads := marks_of_isRequest hreading.trace
  cases hswitch with
  | notFound =>
      refine ⟨hreading.socket, parsed, hparsed, .inl ⟨hreading.file, ?_⟩⟩
      simp [marks_cons, Event.isMark, hreads, hparsed]
  | forbidden =>
      refine ⟨hreading.socket, parsed, hparsed, .inl ⟨rfl, ?_⟩⟩
      simp [marks_cons, Event.isMark, hreads, hparsed]
  | found hfilesize =>
      refine ⟨hreading.socket, parsed, hparsed, .inr ⟨rfl, request, ?_⟩⟩
      simp [marks_cons, Event.isMark, hreads, hparsed]

theorem marks_sending (h : Sending s t) : marks t.trace = marks s.trace := by
  obtain ⟨events, htrace, hevents⟩ := h.trace
  rw [htrace, marks_append, marks_of_isTransfer hevents, List.nil_append]

theorem released_giveUp (h : Reading fd u) :
    Released fd u.giveUp ↔ EndsEarly u.giveUp.trace := by
  have hreads := marks_of_isRequest h.trace
  rw [released_iff_endsEarly_marks]
  simp [marks_cons, hreads, EndsEarly, h.socket]

theorem released_abandoned (h : Accepting env fd s) (h' : Abandoned env s t) :
    Released fd t ↔ EndsEarly t.trace := by
  obtain ⟨u, hsending, -, rfl⟩ := h'
  obtain ⟨hsocket, parsed, hparsed, hmarks⟩ := marks_accepting h
  have hopen : u.client.socket = fd := hsending.socket.trans hsocket
  rw [← marks_sending hsending] at hmarks
  rw [released_iff_endsEarly_marks]
  rcases hmarks with ⟨-, hmarks⟩ | ⟨-, request, hmarks⟩
  · simp [marks_cons, hmarks, EndsEarly, hopen, Event.IsWriteError]
  · simp [marks_cons, hmarks, EndsEarly, hopen, hparsed, List.countP_cons]

theorem not_endsEarly_sending (h : Accepting env fd s) (h' : Sending s t) :
    ¬ EndsEarly t.trace := by
  obtain ⟨-, parsed, hparsed, hmarks⟩ := marks_accepting h
  rw [← marks_sending h'] at hmarks
  rw [← endsEarly_marks]
  rcases hmarks with ⟨-, hmarks⟩ | ⟨-, request, hmarks⟩
  · simp [hmarks, EndsEarly, hparsed, Event.IsWriteError]
  · simp [hmarks, EndsEarly, hparsed]

theorem released_sent (h : Accepting env fd s) (h' : Sending s t) :
    Released fd t ↔ EndsEarly t.trace := by
  obtain ⟨-, parsed, -, hmarks⟩ := marks_accepting h
  rw [← marks_sending h'] at hmarks
  refine iff_of_false (fun hreleased ↦ ?_) (not_endsEarly_sending h h')
  have hclosed := (released_iff_marks.mp hreleased).2.1
  rcases hmarks with ⟨-, hmarks⟩ | ⟨-, request, hmarks⟩
  · simp [hmarks] at hclosed
  · simp [hmarks] at hclosed

theorem released_sentFile (h : Accepting env fd s) (h' : Sending s u) :
    Released fd (u.log .fclose) ↔ EndsEarly (u.log .fclose).trace := by
  obtain ⟨hsocket, parsed, hparsed, hmarks⟩ := marks_accepting h
  rw [← marks_sending h'] at hmarks
  rw [released_iff_endsEarly_marks]
  rcases hmarks with ⟨-, hmarks⟩ | ⟨-, request, hmarks⟩
  · simp [marks_cons, hmarks, EndsEarly, hparsed, Event.IsWriteError]
  · simp [marks_cons, hmarks, EndsEarly, hparsed, List.countP_cons]

theorem not_endsEarly_overrunning (h : Overrunning fd t) : ¬ EndsEarly t.trace := by
  obtain ⟨s, count, buffer, -, -, rfl⟩ := h
  rintro ⟨hfills, -⟩
  exact hfills ⟨.read s.client.nread count count, by simp, rfl⟩

theorem Accepting.inBuffer (h : Accepting env fd t) :
    InBuffer t.client.nwritten t.client.ntowrite := by
  obtain ⟨s, request, parsed, -, -, hswitch⟩ := h
  exact hswitch.inBuffer

theorem session_ends (env : Environment) (fd : ℤ) (buffer : Buffer bufferSize) {fuel : ℕ}
    (hfuel : bufferSize < fuel) :
    Ends (session env fuel) (newConnection fd buffer)
      (fun _ t ↦ Released fd t ↔ EndsEarly t.trace) (fun _ t ↦ ¬ EndsEarly t.trace) := by
  refine (readRequest_ends_of_lt reading_newConnection hfuel).bind (fun result t ht ↦ ?_)
    fun e t ht ↦ not_endsEarly_overrunning ht.2
  rcases ht with ⟨rfl, u, hreading, rfl⟩ | ⟨rfl, haccepting⟩
  · exact released_giveUp hreading
  · refine (writeReply_ends haccepting.inBuffer).bind (fun result u hu ↦ ?_)
      fun e u hu ↦ not_endsEarly_sending haccepting hu.2
    rcases hu with ⟨-, hfailed⟩ | ⟨-, ⟨hsending, -, -⟩ | ⟨v, readResult, hchunked, -, rfl⟩⟩
    · exact released_abandoned haccepting hfailed
    · exact released_sent haccepting hsending
    · exact released_sentFile haccepting hchunked.sending

/-- A session returns with its resources released exactly if it ends early.  When
writes transfer nothing for ever it does neither. -/
theorem session_releases_iff (env : Environment) (fd : ℤ) (buffer : Buffer bufferSize)
    {fuel : ℕ} (hfuel : bufferSize < fuel) :
    Returns (session env fuel) (newConnection fd buffer) (fun _ t ↦ Released fd t) ↔
      EndsEarly (finalState ((session env fuel).run (newConnection fd buffer))).trace := by
  have hends := session_ends env fd buffer hfuel
  cases hrun : (session env fuel).run (newConnection fd buffer) with
  | ok a t =>
      rw [ends_iff_of_ok hrun] at hends
      rw [finalState_ok, ← hends]
      exact ⟨fun h ↦ h.of_eq hrun, fun h ↦ .of_run hrun h⟩
  | error e t =>
      rw [ends_iff_of_error hrun] at hends
      refine ⟨fun h ↦ ?_, fun h ↦ absurd h hends⟩
      obtain ⟨b, u, hok, -⟩ := h
      rw [hrun] at hok
      cases hok

/-- The peer closes the connection before it has sent anything. -/
def hangingUp : Environment := { byteByByte with read _ := none }

theorem session_releases_hangingUp :
    Returns (session hangingUp (bufferSize + 1)) (newConnection 5 fun _ ↦ 0) fun _ t ↦
      Released 5 t := by
  have hrun : (session hangingUp (bufferSize + 1)).run (newConnection 5 fun _ ↦ 0) =
      .ok () ((newConnection 5 fun _ ↦ 0).log (.read 0 bufferSize (-1))).giveUp := rfl
  refine (session_releases_iff hangingUp 5 (fun _ ↦ 0) (Nat.lt_succ_self bufferSize)).mpr ?_
  rw [hrun, EndsEarly]
  simp [newConnection, bufferSize]

def missingFile : Environment := { byteByByte with access _ := -1 }

theorem socket_left_open :
    Returns (session missingFile 3) (newConnection 5 fun _ ↦ 0) fun _ t ↦
      t.client.socket = 5 ∧ t.sent = [79, 75] ∧ t.trace.countP (Event.closesSocket 5) = 0 := by
  have htest : returnsWith (session missingFile 3) (newConnection 5 fun _ ↦ 0) (fun _ t ↦
      t.client.socket = 5 ∧ t.sent = [79, 75] ∧
        t.trace.countP (Event.closesSocket 5) = 0) = true := by
    decide +kernel
  simpa using returnsWith_iff.mp htest

end Session

end OsProjects.Server

import OsProjects.Server.ClientSteps

/-!
# Requests

What `read_request` does.  Its loop asks for one byte more than there is room
for beside the terminator, so that it runs into undefined behaviour when a read
fills the buffer.
-/

namespace OsProjects.Server

open Library.Program Library.Bytes

/-- A call that is made while a request is read, unless the request is accepted
or a read fills the buffer. -/
def Event.IsRequest : Event → Prop
  | .read pos count result => InBuffer pos count ∧ result < count
  | .headerComplete length => InBuffer length 1
  | .getFilename result => result = -1
  | _ => False

structure Reading (fd : ℤ) (s : Connection) : Prop where
  socket : s.client.socket = fd
  file : s.client.file = none
  nwritten : s.client.nwritten = 0
  ntowrite : s.client.ntowrite = 0
  nread_nonneg : 0 ≤ s.client.nread
  nread_le : s.client.nread ≤ bufferSize - 1
  trace : ∀ e ∈ s.trace, e.IsRequest

def Accepting (env : Environment) (fd : ℤ) (t : Connection) : Prop :=
  ∃ s request parsed, Reading fd s ∧ parsed ≠ -1 ∧
    Switch env request (s.log (.getFilename parsed)) t

def Overrunning (fd : ℤ) (t : Connection) : Prop :=
  ∃ s count buffer, Reading fd s ∧ count = bufferSize - s.client.nread ∧
    t = (((s.log (.read s.client.nread count count)).update fun c ↦
      { c with buffer := buffer }).update fun c ↦ { c with nread := c.nread + count }).log
        (.headerComplete bufferSize)

section Reading

variable {env : Environment} {fd : ℤ} {buffer : Buffer bufferSize} {s : Connection}

theorem reading_newConnection : Reading fd (newConnection fd buffer) :=
  ⟨rfl, rfl, rfl, rfl, le_rfl, by simp [newConnection, makeClient, bufferSize],
    by simp [newConnection]⟩

theorem Reading.log (h : Reading fd s) {e : Event} (he : e.IsRequest) : Reading fd (s.log e) :=
  ⟨h.socket, h.file, h.nwritten, h.ntowrite, h.nread_nonneg, h.nread_le,
    List.forall_mem_cons.mpr ⟨he, h.trace⟩⟩

theorem Reading.setBuffer (h : Reading fd s) (buffer : Buffer bufferSize) :
    Reading fd (s.update fun c ↦ { c with buffer := buffer }) :=
  ⟨h.socket, h.file, h.nwritten, h.ntowrite, h.nread_nonneg, h.nread_le, h.trace⟩

theorem Reading.received (h : Reading fd s) {result : ℤ} (hpos : 0 < result)
    (hlt : result < bufferSize - s.client.nread) (buffer : Buffer bufferSize) :
    Reading fd (s.received (bufferSize - s.client.nread) result buffer) := by
  have hnread := h.nread_nonneg
  have hroom : InBuffer s.client.nread (bufferSize - s.client.nread) :=
    ⟨by omega, by omega, by omega⟩
  have hnext : InBuffer (s.client.nread + result) 1 := ⟨by omega, by omega, by omega⟩
  refine ⟨h.socket, h.file, h.nwritten, h.ntowrite, ?_, ?_, ?_⟩
  · exact Int.add_nonneg hnread hpos.le
  · simp only [Connection.received_client]
    omega
  · exact List.forall_mem_cons.mpr ⟨hnext, List.forall_mem_cons.mpr ⟨⟨hroom, hlt⟩, h.trace⟩⟩

theorem readRequestBody_ends (h : Reading fd s) :
    Ends (readRequestBody env ()) s
      (fun next t ↦ Sum.elim (fun _ ↦ Reading fd t ∧ s.client.nread < t.client.nread)
        (fun result ↦ (result = 0 ∧ ∃ u, Reading fd u ∧ t = u.giveUp) ∨
          result = 1 ∧ Accepting env fd t) next)
      (fun e t ↦ (∃ f, e = .fault f) ∧ Overrunning fd t) := by
  have hnread := h.nread_nonneg
  rw [readRequestBody, ends_get_bind]
  by_cases hfull : s.client.nread < bufferSize - 1
  · have hroom : InBuffer s.client.nread (bufferSize - s.client.nread) :=
      ⟨by omega, by omega, by omega⟩
    obtain ⟨bytesRead, buffer, hread, hle, -⟩ := run_read env s hroom
    rw [if_pos hfull, ends_bind_of_ok hread]
    by_cases hstop : bytesRead ≤ 0
    · have hcall : Event.IsRequest
          (.read s.client.nread (bufferSize - s.client.nread) bytesRead) := ⟨hroom, by omega⟩
      rw [if_pos hstop, ends_bind_of_ok (run_giveUp _)]
      exact .inl ⟨rfl, _, (h.log hcall).setBuffer buffer, rfl⟩
    rw [if_neg hstop, ends_bind_of_ok (run_modifyClient _ _)]
    by_cases hlt : bytesRead < bufferSize - s.client.nread
    · have hnext : InBuffer (s.client.nread + bytesRead) 1 := ⟨by omega, by omega, by omega⟩
      obtain ⟨complete, buffer', hcomplete⟩ := run_headerComplete_received env s
        (bufferSize - s.client.nread) buffer hnext
      have hreceived := h.received (by omega) hlt buffer'
      rw [ends_bind_of_ok hcomplete]
      cases complete with
      | false => exact ⟨hreceived, lt_add_of_pos_right _ (by omega)⟩
      | true =>
          rw [if_pos rfl, ends_bind_of_ok (run_getFilename env _)]
          generalize env.getFilename _ = answer
          obtain ⟨parsed, request⟩ := answer
          by_cases hparsed : parsed = -1
          · subst hparsed
            have hrejected : Event.IsRequest (.getFilename (-1)) := rfl
            exact .inl ⟨rfl, _, hreceived.log hrejected, rfl⟩
          · obtain ⟨t, hrun, hswitch⟩ := run_switchState env request
              ((s.received (bufferSize - s.client.nread) bytesRead buffer').log
                (.getFilename parsed))
            simp only [if_neg hparsed]
            rw [ends_bind_of_ok hrun]
            exact .inr ⟨rfl, _, request, parsed, hreceived, hparsed, hswitch⟩
    · obtain rfl : bytesRead = bufferSize - s.client.nread := by omega
      obtain ⟨f, hrun⟩ := run_headerComplete_bufferSize env
        (((s.log (.read s.client.nread (bufferSize - s.client.nread)
          (bufferSize - s.client.nread))).update fun c ↦ { c with buffer := buffer }).update
            fun c ↦ { c with nread := c.nread + (bufferSize - s.client.nread) })
      rw [add_sub_cancel, ends_bind_of_error hrun]
      exact ⟨⟨f, rfl⟩, s, _, buffer, h, rfl, rfl⟩
  · rw [if_neg hfull, ends_bind_of_ok (run_giveUp _)]
    exact .inl ⟨rfl, s, h, rfl⟩

/-- `read_request` gives a client up, accepts its request, or runs over. -/
theorem readRequest_ends {fuel : ℕ} (h : Reading fd s) :
    Ends (readRequest env fuel) s
      (fun result t ↦ (result = 0 ∧ ∃ u, Reading fd u ∧ t = u.giveUp) ∨
        result = 1 ∧ Accepting env fd t)
      (fun e t ↦ (e = .running ∧ Reading fd t) ∨ (∃ f, e = .fault f) ∧ Overrunning fd t) := by
  refine Ends.whileLoop (I := fun _ t ↦ Reading fd t) (fun _ t ht ↦ ?_)
    (fun _ _ ht ↦ .inl ⟨rfl, ht⟩) h
  refine (readRequestBody_ends ht).mono (fun next u hu ↦ ?_) fun _ _ hE ↦ .inr hE
  cases next with
  | inl acc => exact hu.1
  | inr result => exact hu

/-- Every iteration takes a byte at least, so that the loop is left. -/
theorem readRequest_ends_of_lt {fuel : ℕ} (h : Reading fd s) (hfuel : bufferSize < fuel) :
    Ends (readRequest env fuel) s
      (fun result t ↦ (result = 0 ∧ ∃ u, Reading fd u ∧ t = u.giveUp) ∨
        result = 1 ∧ Accepting env fd t)
      (fun e t ↦ (∃ f, e = .fault f) ∧ Overrunning fd t) := by
  refine Ends.whileLoop_of_lt (I := fun _ t ↦ Reading fd t)
    (fun _ t ↦ (bufferSize - t.client.nread).toNat) (fun _ t ht ↦ ?_) h ?_
  · refine (readRequestBody_ends ht).mono (fun next u hu ↦ ?_) fun _ _ hE ↦ hE
    cases next with
    | inl acc =>
        have hle := hu.1.nread_le
        have hlt := hu.2
        exact ⟨hu.1, by omega⟩
    | inr result => exact hu
  · have hnonneg := h.nread_nonneg
    omega

end Reading

end OsProjects.Server

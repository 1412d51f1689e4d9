import Ehttpd.Core.AllocHistory
import Ehttpd.Http.Framing

namespace Ehd.Http

open Program World Palloc

variable {w w' : World} {p q : Pc}

/-- Where a request has been left: its connection is closed, or every request has been answered
whole and the connection kept alive after it, or the last answer is on its way. -/
inductive Settled (w : World) : Prop
  | closed (h : w.c.fd = -1)
  | answered (done : List Transfer) (hwire : OnWire w w.t.handed done none)
  | answering (done : List Transfer) (d : Transfer) (hwire : OnWire w w.t.handed done (some d))
      (h : Responding w)

/-- An answer is built under `ehd_http_block_read`, and where the run stops at a `NULL` that was
an allocation's, this allocation was made there. -/
structure Building (p : Pc) (w : World) : Prop where
  readHandler : p = .hand ∨ p = .build → w.c.readHandler = .blockRead
  refused : p = .stopped .nullAlloc → w.k.Refused .blockRead

theorem building_elsewhere (hhand : p ≠ .hand) (hbuild : p ≠ .build)
    (hstop : p ≠ .stopped .nullAlloc) : Building p w where
  readHandler := by
    rintro (h | h)
    · exact absurd h hhand
    · exact absurd h hbuild
  refused := fun h => absurd h hstop

theorem Move.building (h : Building p w) (hm : Move (p, w) (q, w')) : Building q w' := by
  cases hm with
  | «have» hread _ _ => cases hread <;> exact building_elsewhere (by simp) (by simp) (by simp)
  | recv hread _ _ _ _ _ _ => cases hread <;> exact building_elsewhere (by simp) (by simp) (by simp)
  | headersDone _ _ => exact ⟨fun _ => rfl, by simp⟩
  | hand _ => exact ⟨fun _ => h.readHandler (Or.inl rfl), by simp⟩
  | buildFails _ hrefused =>
    rw [h.readHandler (Or.inr rfl)] at hrefused
    exact ⟨by simp, fun _ => hrefused⟩
  | _ => exact building_elsewhere (by simp) (by simp) (by simp)

theorem Run.building {P : Kernel → Prop} {o : Option Stop} (h : Run P o w) :
    Building (.ofRun o) w := by
  refine And.right (Calls.invariant
    (I := fun o w => Ctl (.ofRun o) w ∧ Building (.ofRun o) w) ?_ ?_ ?_ h)
  · rintro w ⟨haccepted, -⟩
    exact ⟨InLoop.connected haccepted.connected,
      building_elsewhere (by simp [Pc.ofRun]) (by simp [Pc.ofRun]) (by simp [Pc.ofRun])⟩
  · rintro w x ⟨hctl, hb⟩ ⟨events, hev, rfl⟩
    exact Walks.invariant (I := fun p w => Ctl p w ∧ Building p w)
      (fun p w q w' hp hm => ⟨Move.ctl hp.1 hm, Move.building hp.2 hm⟩)
      (dispatch_goes hctl hev) ⟨hctl, hb⟩
  · rintro w w' ⟨hctl, -⟩ ⟨k, -, hle, rfl⟩
    exact ⟨InLoop.onKernel hctl hle,
      building_elsewhere (by simp [Pc.ofRun]) (by simp [Pc.ofRun]) (by simp [Pc.ofRun])⟩

theorem Wire.settled (hctl : InLoop w) (h : Wire .loop w) : Settled w := by
  rcases h with ⟨hfd, -⟩ | ⟨-, done, hq⟩ | ⟨hmask, done, d, hmid⟩
  · exact .closed hfd
  · exact .answered done hq.wire
  · have hread : w.c.ev.events ≠ readMask := by
      rw [hmask]
      decide
    rcases hctl with hc | hc | hc | hc | hc
    · exact .closed hc.fd
    · exact absurd hc.mask hread
    · exact absurd hc.mask hread
    · exact absurd hc.mask hread
    · exact .answering done d hmid.wire hc

/-- No `malloc` fails while `c->read_handler` is `ehd_http_block_read`: these are the calls that
`ehd_http_handler` and what it calls make, where the request pool has no room. -/
def Grants (handler : ReadHandler) (h h' : Heap) : Prop := handler = .blockRead → AllGiven h h'

instance (handler : ReadHandler) (h h' : Heap) : Decidable (Grants handler h h') := by
  unfold Grants
  infer_instance

/-- Over a `malloc` that gives all that is asked for while an answer is built, and fails elsewhere
as it likes, no `NULL` that an allocation has returned is dereferenced, and the requests are
settled. -/
theorem refusals_survived {M : Malloc} {o : Option Stop} {σ : Pools} (h : Run (fun _ => True) o w)
    (hlog : PoolLog M Grants w.k.allocs σ) :
    o ≠ some .nullAlloc ∧ (o = none → Settled w) := by
  constructor
  · rintro rfl
    -- the last allocation has failed, and it was one of the handler's
    obtain ⟨before, call, hallocs, -⟩ := h.building.refused rfl
    rw [hallocs] at hlog
    obtain ⟨σ₁, σ₂, hcalled, hgrants⟩ := hlog.last
    exact hcalled.fails_iff.1 rfl (hgrants rfl)
  · rintro rfl
    exact Wire.settled h.ctl h.wire

def acceptAlloc : Allocation := ⟨.eventAccept, .createPool 0 (16 * 1024), true⟩

/-- A connection whose pool is there; the allocation at this place in the log fails. -/
def scarceWorld (recvs : List RecvResult) (sends : List SendResult) (fails : Nat) : World :=
  { sampleWorld recvs sends with
    k := { sampleKernel recvs sends with
      allocs := [acceptAlloc], allocOk := fun _ n => n != fails } }

theorem scarceWorld_run (recvs : List RecvResult) (sends : List SendResult) (fails : Nat) :
    Run (fun k => ∀ n, k.epollOk n = true) none (scarceWorld recvs sends fails) :=
  Calls.init ⟨⟨⟨7, 0, 7, 0, rfl, by decide, Nat.one_pos⟩, rfl⟩, fun _ => rfl⟩

def twoRequests : World :=
  scarceWorld [.data (ascii "GET / HTTP/1.1\x0d\n\x0d\n"), .data (ascii "GET / HTTP/1.1\x0d\n\x0d\n")]
    [.sent 10000, .sent 10000] 20

/-- `malloc` gives the pool of the connection and that of the first request, and no more: the
first request is answered, and the second closes the connection. -/
theorem refusals_survived_twoRequests :
    Settled (after (dispatch EPOLLIN) (after (dispatch EPOLLIN) twoRequests)) := by
  have hstart : Run (fun _ => True) none twoRequests :=
    Calls.init ⟨⟨⟨7, 0, 7, 0, rfl, by decide, Nat.one_pos⟩, rfl⟩, trivial⟩
  have hfirst : Run (fun _ => True) none (after (dispatch EPOLLIN) twoRequests) := by
    apply hstart.dispatch
    · unfold Registered
      decide
    · decide +kernel
  have hrun : Run (fun _ => True) none
      (after (dispatch EPOLLIN) (after (dispatch EPOLLIN) twoRequests)) := by
    apply hfirst.dispatch
    · unfold Registered
      decide +kernel
    · decide +kernel
  have hreplay : (replay (scarce 2) Grants (after (dispatch EPOLLIN)
      (after (dispatch EPOLLIN) twoRequests)).k.allocs noPools).isSome = true := by decide +kernel
  obtain ⟨σ, hσ⟩ := Option.isSome_iff_exists.1 hreplay
  have hlog := replay_sound (.start fun _ => rfl) hσ
  rw [List.nil_append] at hlog
  exact (refusals_survived hrun hlog).2 rfl

/-- A request whose copies fill the pool: there is no room for the path of the file. -/
def longRequest : World :=
  scarceWorld
    [.data (ascii "GET /x." ++ List.replicate 3100 97 ++ ascii " HTTP/1.1\x0d\n\x0d\n")] [] 13

/-- When `malloc` then gives no more, the path is put into memory that was not given. -/
theorem null_dereferenced : ¬ ∀ (M : Malloc) (o : Option Stop) (w : World) (σ : Pools),
    Run (fun k => ∀ n, k.epollOk n = true) o w → PoolLog M (fun _ _ _ => True) w.k.allocs σ →
    o ≠ some .nullAlloc ∧ (o = none → Settled w) := by
  intro h
  have hstop : stopped (dispatch EPOLLIN) longRequest = some .nullAlloc := by decide +kernel
  have hreplay : (replay (scarce 2) (fun _ _ _ => True)
      (after (dispatch EPOLLIN) longRequest).k.allocs noPools).isSome = true := by decide +kernel
  obtain ⟨σ, hσ⟩ := Option.isSome_iff_exists.1 hreplay
  have hlog := replay_sound (.start fun _ => rfl) hσ
  rw [List.nil_append] at hlog
  have hstart : Run (fun k => ∀ n, k.epollOk n = true) none longRequest := scarceWorld_run _ _ _
  have hrun := hstart.stop (by unfold Registered; decide) hstop
  exact (h _ _ _ _ hrun hlog).1 rfl

end Ehd.Http

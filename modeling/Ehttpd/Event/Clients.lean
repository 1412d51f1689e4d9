import Ehttpd.Event.Connections
import Ehttpd.Http.Conversations

namespace Ehd

open Program Http Ehd.Cycle ClientRequest

variable {σ : Cycle} {i : Nat} {qs : List ClientRequest}

/-- However the events of the clients are interleaved, a client that sends the requests `qs` one
behind the other and reads responses off the wire hears the answers to its own requests, in their
order, and a part of the next; once all that it has sent has come and its connection waits with
nothing unread, it has heard one for each request and nothing more. -/
theorem clients_converse (h : Cycle.Run Kernel.Reliable none σ) (hfd : (σ.slots i).c.fd ≠ -1)
    (hl : ¬ Listens σ i) (hsound : σ.conf.Sound) (hall : ∀ q ∈ qs, q.WellFormed)
    (hclear : ∀ q ∈ qs, Clear (47 :: q.path))
    (hpart : (σ.slots i).t.received <+: qs.flatMap encode) :
    ∃ rs rest, Hears σ.conf (σ.slots i).t.sent (qs.map head) rs rest ∧
      ((σ.slots i).t.received = qs.flatMap encode → (σ.slots i).c.ev.events = readMask →
        (∀ b, (σ.slots i).c.buf = some b → b.unread = []) → rs.length = qs.length ∧ rest = []) := by
  have hrun := h.separate.1 rfl i ⟨hfd, hl⟩
  obtain ⟨ys, hys⟩ := hrun.handed_to_client hall hpart
  have hasked : ∀ x ∈ (σ.world i).t.handed, Clear x.uri := by
    intro x hx
    have hmem : x.toHead ∈ qs.map head := hys ▸ List.mem_append_left ys (List.mem_map_of_mem hx)
    obtain ⟨q, hq, hhead⟩ := List.mem_map.1 hmem
    have huri : x.uri = 47 :: q.path := congrArg Head.uri hhead.symm
    rw [huri]
    exact hclear q hq
  obtain ⟨rs, rest, hhears, -, hwaits⟩ := hrun.wire.hears hsound hasked
  refine ⟨rs, rest, hys ▸ hhears.append, fun hcome hmask hnil => ?_⟩
  obtain ⟨hlen, hrest⟩ := hwaits rfl hfd hmask
  have hhanded := congrArg List.length (hrun.all_handed_to_client hall hcome hfd hmask hnil)
  rw [List.length_map, List.length_map] at hhanded
  exact ⟨hlen.trans hhanded, hrest⟩

/-- The first of two clients has sent one request, and reads one response. -/
theorem clients_converse_two : ∃ rs, rs.length = 1 ∧
    Hears twoServed.conf (twoServed.slots 7).t.sent [⟨.get, [47], []⟩] rs [] := by
  have hsound : twoServed.conf.Sound := by
    constructor <;> decide +kernel
  have hcome : (twoServed.slots 7).t.received = [rootRequest].flatMap encode := by decide +kernel
  have hbuf : (twoServed.slots 7).c.buf = some ⟨[], 0, 4096, 0, none⟩ := by decide +kernel
  have hroot : pathOf [47] = some [47] := by decide
  have hclear : ∀ q ∈ [rootRequest], Clear (47 :: q.path) := by
    refine List.forall_mem_singleton.2 fun path hpath => ?_
    rw [show pathOf (47 :: rootRequest.path) = some [47] from hroot] at hpath
    cases hpath
    decide
  obtain ⟨rs, rest, hhears, hall⟩ := clients_converse two_run two_occupied.1.fd
    two_occupied.1.serves hsound rootRequest_wellFormed hclear (hcome ▸ List.prefix_refl _)
  obtain ⟨hlen, rfl⟩ := hall hcome (by decide +kernel) fun b hb => by
    rw [hbuf] at hb
    cases hb
    rfl
  exact ⟨rs, hlen, hhears⟩

end Ehd

/-
# What travels down

Over any links, whatever is on its way to the client is a reply, an `RR` or a `REJ`, or a packet
that a child has built from its file.  The parent's `outpkt` is no exception: it is garbage until
the parent has built its first reply, but until then nobody can make the parent send it
(`Untouched`).
-/
import Fileserver.Told

namespace Fileserver

open Proto

variable [Host]

namespace Parent

/-- What the parent sends is `outpkt`. -/
theorem run_sent {p : Parent} {a : Addr} {q r : Packet} {sock : Addr} {forks io : Bool}
    (h : r ∈ (p.run a q sock forks io).2.1) : r = (p.run a q sock forks io).1.outpkt := by
  unfold run send at h ⊢
  split_ifs at h ⊢ <;> simp_all

/-- The parent answers a `CXN2` only if a connection is pending, and nothing else but `CXN`s and
`REJ`s. -/
theorem run_out {p : Parent} {a : Addr} {q r : Packet} {sock : Addr} {forks io : Bool}
    (h : r ∈ (p.run a q sock forks io).2.1) :
    q.type = pktTypeCXN ∨ p.cxn2 = true ∨ q.type = pktTypeREJ := by
  unfold run at h
  split_ifs at h <;> simp_all

/-- A turn builds an `RR` for someone, or leaves `outpkt` alone. -/
theorem run_outpkt (p : Parent) (a : Addr) (q : Packet) (sock : Addr) (forks io : Bool) :
    ((p.run a q sock forks io).1.outpkt.type = pktTypeRR ∧
      (p.run a q sock forks io).1.outFor ≠ none) ∨
    ((p.run a q sock forks io).1.outpkt = p.outpkt ∧
      (p.run a q sock forks io).1.outFor = p.outFor ∧
      (q.ok = true → q.type ≠ pktTypeCXN)) := by
  unfold run send
  split_ifs <;> simp_all

end Parent

/-- A child in `init` sends replies only. -/
theorem Server.InitTurn.out_reply {v v' : Server} {r : Recv} {io : Bool} {p : Packet}
    (h : v.InitTurn r io v' (some p)) : p.type = pktTypeRR ∨ p.type = pktTypeREJ := by
  cases h with
  | nag | gaveUp | high => exact .inr rfl
  | old | take | opened | unopened => exact .inl rfl

namespace World

variable {n : Link} {w t : World} {e : Event}

/-! ## 1. Replies and data -/

/-- The parent has not answered anything yet. -/
structure Untouched (w : World) : Prop where
  cxn2 : w.parent.cxn2 = false
  children : w.children = []
  down : ∀ x, w.down x = []
  up : ∀ x, ∀ d ∈ w.up x, d.pkt.type ≠ pktTypeREJ
  client : w.client.mvState ≠ .recvPackets

/-- **The invariant.** -/
structure Sent (w : World) : Prop where
  down : ∀ x, ∀ d ∈ w.down x,
    (d.pkt.type = pktTypeRR ∨ d.pkt.type = pktTypeREJ) ∨ d.pkt ∈ w.built
  held : ∀ v ∈ w.children, ∀ p, p ∈ v.mvWindow ∨ p ∈ v.mvOutBuf → p ∈ w.built
  outpkt : w.parent.outFor ≠ none → w.parent.outpkt.type = pktTypeRR
  untouched : w.parent.outFor = none → w.Untouched

omit [Host] in
/-- A turn of a child. -/
theorem Sent.child (hi : w.Sent) {k : ℕ} {v v' : Server} {up : Addr → List Datagram}
    {b : List Packet} {out : Option Packet} (hk : w.children[k]? = some v)
    (hb : ∀ p ∈ w.built, p ∈ b) (hh : ∀ p, p ∈ v'.mvWindow ∨ p ∈ v'.mvOutBuf → p ∈ b)
    (hout : ∀ p, out = some p → (p.type = pktTypeRR ∨ p.type = pktTypeREJ) ∨ p ∈ w.built) :
    (w.afterChild k up b (v', out)).Sent := by
  refine ⟨?_, ?_, hi.outpkt, ?_⟩
  · intro x d h
    rcases mem_post.mp h with h | ⟨-, p, hp, rfl⟩
    · exact (hi.down x d h).imp_right (hb _)
    · exact (hout p hp).imp_right (hb _)
  · exact forall_set (fun u hu p hp => hb p (hi.held u hu p hp)) hh
  · intro h
    simp [(hi.untouched h).children] at hk

/-- A turn of the parent. -/
theorem Sent.parent (hi : w.Sent) {src sock : Addr} {forks io : Bool} {buf : Packet}
    {l : List Datagram} {b : List Addr} (hw : w.Wf) (hok : buf.ok = true)
    (hm : ⟨src, buf⟩ ∈ w.up w.port) (hl : ∀ d ∈ l, d ∈ w.up w.port) :
    (w.afterParent src l b (w.parent.run src buf sock forks io)).Sent := by
  have hcases := w.parent.run_outpkt src buf sock forks io
  -- before the first reply nothing happens
  have hnone (h : (w.parent.run src buf sock forks io).1.outFor = none) :
      w.Untouched ∧ buf.type ≠ pktTypeCXN ∧
        (w.parent.run src buf sock forks io).2.1 = none := by
    obtain ⟨-, h2, h3⟩ := hcases.resolve_left fun hc => hc.2 h
    have hu := hi.untouched (h2.symm.trans h)
    refine ⟨hu, h3 hok, Option.eq_none_iff_forall_not_mem.mpr ?_⟩
    intro p hp
    rcases Parent.run_out hp with hc | hx | hrej
    · exact h3 hok hc
    · simp [hu.cxn2] at hx
    · exact hu.up _ _ hm hrej
  refine ⟨?_, ?_, ?_, ?_⟩
  · intro x d h
    rcases mem_post.mp h with h | ⟨-, p, hp, rfl⟩
    · exact hi.down x d h
    · refine .inl (.inl ?_)
      have hsent : p = (w.parent.run src buf sock forks io).1.outpkt := Parent.run_sent hp
      rcases hcases with ⟨ht, -⟩ | ⟨h1, h2, -⟩
      · rw [hsent]
        exact ht
      · rw [hsent, h1]
        refine hi.outpkt ?_
        intro hn
        have hp' := (hnone (h2.trans hn)).2.2
        rw [hp'] at hp
        simp at hp
  · refine forall_fork hi.held ?_
    simp [Server.forked, hw.parent.window, hw.parent.outBuf]
  · intro h
    rcases hcases with ⟨ht, -⟩ | ⟨h1, h2, -⟩
    · exact ht
    · change (w.parent.run src buf sock forks io).1.outpkt.type = pktTypeRR
      rw [h1]
      exact hi.outpkt (h2 ▸ h)
  · intro h
    obtain ⟨hu, hc, hout⟩ := hnone h
    have hkid : (w.parent.run src buf sock forks io).2.2 = none := by
      refine Option.eq_none_iff_forall_not_mem.mpr ?_
      intro v hv
      have hx := (Parent.run_child hv).2.1
      simp [hu.cxn2] at hx
    refine
      { cxn2 := ?_, children := ?_, down := ?_
        up := fun x d h => hu.up x d (mem_update hl h), client := hu.client }
    · rw [← Bool.not_eq_true]
      intro hx
      rcases Parent.run_pending hx with ⟨ht, -⟩ | ⟨hx, -⟩
      · exact hc ht
      · simp [hu.cxn2] at hx
    · simp [afterParent, hu.children, hkid]
    · simpa [afterParent, hout] using hu.down

theorem Sent.step (hi : w.Sent) (hw : w.Wf) (h : Turn n w e t) : t.Sent := by
  cases h with
  | parentStops =>
    exact ⟨hi.down, hi.held, hi.outpkt, fun h => { hi.untouched h with }⟩
  | parentDrops hok ha hs =>
    refine ⟨by simpa [afterParent] using hi.down, by simpa [afterParent] using hi.held, hi.outpkt,
      ?_⟩
    intro h
    have hu := hi.untouched h
    exact
      { cxn2 := hu.cxn2, children := by simp [afterParent, hu.children]
        down := by simpa [afterParent] using hu.down
        up := fun x d h => hu.up x d (mem_update (fun _ => hs.sub) h), client := hu.client }
  | parent hn hok ha ht => exact hi.parent hw hok ht.mem fun _ => ht.sub
  | @childAct k io v v' out hk hd ht hst =>
    have hv := List.mem_of_getElem? hk
    refine hi.child hk ?_ ?_ ?_
    · intro p hp
      split_ifs
      · exact List.mem_append_left _ hp
      · exact hp
    · intro p hp
      rcases ht.held hp with hp | ⟨hpush, rfl⟩
      · have := hi.held v hv p hp
        split_ifs
        · exact List.mem_append_left _ this
        · exact this
      · rw [if_pos hpush]
        exact List.mem_append_right _ (List.mem_singleton_self _)
    · rintro p rfl
      exact .inr (hi.held v hv p (.inr ht.out_mem))
  | @childInit k a io v v' r l out hk hs hal ha ht hst =>
    have hv := List.mem_of_getElem? hk
    obtain ⟨-, hwin, hout, -⟩ := ht.stays (hw.loop v hv hs)
    refine hi.child hk (fun _ h => h) (by rw [hwin, hout]; exact hi.held v hv) ?_
    rintro p rfl
    exact .inl ht.out_reply
  | @childHear k a io v v' r l out hk hd hal ha ht hst =>
    have hv := List.mem_of_getElem? hk
    refine hi.child hk (fun _ h => h) ?_ ?_
    · intro p hp
      rcases ht.held hp with hp | ⟨hpush, -⟩
      · exact hi.held v hv p hp
      · simp [Server.pushes] at hpush
    · rintro p rfl
      exact .inr (hi.held v hv p (.inr ht.out_mem))
  | clientSends hs hsent =>
    obtain ⟨h0, h5, -⟩ := hw.client hs
    refine ⟨hi.down, hi.held, hi.outpkt, ?_⟩
    intro h
    have hu := hi.untouched h
    refine { hu with up := ?_ }
    intro x d h
    rcases mem_post.mp h with h | ⟨-, p, hp, rfl⟩
    · exact hu.up x d h
    · obtain rfl := Option.some.inj hp
      exact Client.pkt_type_rej h0 h5
  | clientStops hs =>
    refine ⟨hi.down, hi.held, hi.outpkt, ?_⟩
    intro h
    have hu := hi.untouched h
    exact { hu with up := by simpa [afterClient] using hu.up, client := by simp [afterClient] }
  | @clientInit a sock wr io r l c hn hs hsent hal ha ht =>
    refine ⟨fun x d h => hi.down x d (mem_update (fun _ => (Arrival.recv_shed hal ha).sub) h),
      hi.held, hi.outpkt, ?_⟩
    intro h
    have hu := hi.untouched h
    -- with nothing in flight nothing arrives
    have hno {src : Addr} {buf : Packet} (hr : r = .datagram src buf) (hok : buf.ok = true) :
        False := by
      subst hr
      have hm := (Arrival.recv_ok hal ha hok).mem
      simp [hu.down] at hm
    refine
      { cxn2 := hu.cxn2, children := hu.children, down := ?_
        up := by simpa [afterClient] using hu.up, client := ?_ }
    · intro x
      refine List.eq_nil_iff_forall_not_mem.mpr ?_
      intro d hd
      have hm := mem_update (fun _ => (Arrival.recv_shed hal ha).sub) hd
      simp [hu.down] at hm
    · cases ht with
      | again => exact hu.client
      | fail => simp [afterClient]
      | opens hok | switches hok | back hok | onward hok | leaves hok => exact (hno rfl hok).elim
  | clientHear hs hal ha ht =>
    exact ⟨fun x d h => hi.down x d (mem_update (fun _ => (Arrival.recv_shed hal ha).sub) h),
      hi.held, hi.outpkt, fun h => absurd hs (hi.untouched h).client⟩
  | noiseUp hn =>
    refine ⟨hi.down, hi.held, hi.outpkt, ?_⟩
    intro h
    have hu := hi.untouched h
    exact { hu with up := fun x d h => hu.up x d (mem_update (fun _ => hn.sub) h) }
  | noiseDown hn =>
    refine ⟨fun x d h => hi.down x d (mem_update (fun _ => hn.sub) h), hi.held, hi.outpkt,
      ?_⟩
    intro h
    have hu := hi.untouched h
    refine { hu with down := fun x => List.eq_nil_iff_forall_not_mem.mpr ?_ }
    intro d hd
    have hm := mem_update (fun _ => hn.sub) hd
    simp [hu.down] at hm

theorem sent_of_reach {from_ : List UInt8} {bufsz winsz : Int32}
    (h : (system from_ bufsz winsz n).Reach w) : w.Sent := by
  refine h.invariant (I := Sent) ?_ ?_
  · intro w h0
    obtain ⟨sock, sk, addr, -, hc⟩ := h0.client
    refine ⟨by simp [h0.down], by simp [h0.children], by simp [h0.parent.outFor], ?_⟩
    intro _
    constructor <;> simp [h0.parent.cxn2, h0.children, h0.down, h0.up, hc, Client.rcopy]
  · intro _ _ _ hr hi hm hn
    exact hi.step (wf_of_reach hr) (next_cases (wf_of_reach hr) hm hn)

/-! ## 2. The packets built -/

/-- A read of the named file with the buffer size that arrives fits a packet: the size does, or
the file has no more bytes than that. -/
def Fits (from_ : List UInt8) (bufsz : Int32) : Prop :=
  ∀ contents, Host.file (nameSent from_) = some contents →
    min bufsz.toUInt32.toUInt16.toNat contents.length ≤ pktDMax

/-- The packets built are data packets with as many bytes as their size says. -/
theorem built_of_reach {from_ : List UInt8} {bufsz winsz : Int32} (hD : Fits from_ bufsz)
    (h : (system from_ bufsz winsz n).Reach w) :
    ∀ p ∈ w.built, IsData p ∧ p.size.toNat ≤ pktDMax := by
  refine h.invariant (I := fun w => ∀ p ∈ w.built, IsData p ∧ p.size.toNat ≤ pktDMax)
    (fun w h0 => by simp [h0.built]) ?_
  intro w e t hr hi hm hn
  cases next_cases (wf_of_reach hr) hm hn with
  | @childAct k io v v' out hk hd =>
    obtain ⟨hsize, -, hname⟩ := pkt_of_reach hr
    have hs := (told_of_reach hr).data v (List.mem_of_getElem? hk) hd
    have hfile := hs.file
    rw [hs.fromName, hname] at hfile
    have hB : v.mvBufferSize.toNat = bufsz.toUInt32.toUInt16.toNat := by
      rw [hs.bufferSize, hsize, UInt16.toNat_toUInt32]
    have hlen : (v.mvFrom.ahead v.mvBufferSize.toNat).length ≤ pktDMax := by
      have := hD _ hfile
      rw [File.length_ahead, hB]
      omega
    intro p hp
    simp only [afterChild] at hp
    split_ifs at hp
    · rcases List.mem_append.mp hp with hp | hp
      · exact hi p hp
      · obtain rfl := List.mem_singleton.mp hp
        refine ⟨datpkt_isData _ _, ?_⟩
        rw [Server.nextPacket, toNat_datpkt_size _ (lt_of_le_of_lt hlen (by decide))]
        exact hlen
    · exact hi p hp
  | _ => exact hi

end World

end Fileserver

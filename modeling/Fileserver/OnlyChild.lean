/-
# One client has one child

Over links that keep the order and duplicate nothing, the client can send its `CXN` and its
`CXN2` any number of times without being given a second child: all its `CXN`s arrive before the
first `CXN2`, and the parent drops a `CXN2` when no connection is pending.
-/
import Fileserver.Opening

namespace Fileserver

open Proto

variable [Host]

/-- Behind a turn a connection is pending after a `CXN`, and not after a `CXN2`. -/
theorem Parent.run_cxn2 (p : Parent) (a : Addr) {q : Packet} (sock : Addr) (forks io : Bool)
    (hok : q.ok = true) :
    (p.run a q sock forks io).1.cxn2 =
      if q.type = pktTypeCXN then true else if q.type = pktTypeCXN2 then false else p.cxn2 := by
  unfold run send
  split_ifs <;> simp_all

namespace World

variable {w t : World} {e : Event}

/-- **At most one child.**  The requests at the parent are in order, and once there is a child
nothing can make the parent fork again. -/
structure OnlyChild (w : World) : Prop where
  order : (w.up w.port).Pairwise fun d e => d.pkt.type = pktTypeCXN2 → e.pkt.type ≠ pktTypeCXN
  one : w.children = [] ∨ (∃ v, w.children = [v]) ∧ w.parent.cxn2 = false ∧
    ∀ d ∈ w.up w.port, d.pkt.type ≠ pktTypeCXN

omit [Host] in
/-- Nothing was added at the parent. -/
theorem OnlyChild.of_sublist (hi : w.OnlyChild) (hp : t.port = w.port)
    (hx : t.parent.cxn2 = w.parent.cxn2) (hl : t.children.length = w.children.length)
    (hu : (t.up w.port).Sublist (w.up w.port)) : t.OnlyChild := by
  refine ⟨hp ▸ hi.order.sublist hu, ?_⟩
  rcases hi.one with h | ⟨⟨v, h⟩, h2, h3⟩
  · exact .inl (List.length_eq_zero_iff.mp (by rw [hl, h, List.length_nil]))
  · refine .inr ⟨List.length_eq_one_iff.mp (by rw [hl, h]; rfl), hx ▸ h2, ?_⟩
    intro d hd
    rw [hp] at hd
    exact h3 d (hu.subset hd)

omit [Host] in
/-- The client has sent a packet: if it is a `CXN`, only `CXN`s have been sent before. -/
theorem OnlyChild.of_sent (hi : w.OnlyChild) (hp : t.port = w.port)
    (hx : t.parent.cxn2 = w.parent.cxn2) (hv : t.children = w.children) {dst src : Addr}
    {p : Packet} (hu : t.up = post w.up dst src (some p))
    (hn : p.type = pktTypeCXN →
      w.children = [] ∧ ∀ d ∈ w.up w.port, d.pkt.type ≠ pktTypeCXN2) : t.OnlyChild := by
  by_cases hd : w.port = dst
  · have hup : t.up t.port = w.up w.port ++ [⟨src, p⟩] := by
      rw [hu, hp, ← hd, post, Function.update_self]
      rfl
    constructor
    · rw [hup, List.pairwise_append]
      refine ⟨hi.order, List.pairwise_singleton _ _, ?_⟩
      intro d hd e he ht hc
      rw [List.mem_singleton.mp he] at hc
      exact (hn hc).2 d hd ht
    · rw [hv, hx, hup]
      by_cases hc : p.type = pktTypeCXN
      · exact .inl (hn hc).1
      · refine hi.one.imp_right (And.imp_right (And.imp_right ?_))
        intro h d hd
        rcases List.mem_append.mp hd with hd | hd
        · exact h d hd
        · exact List.mem_singleton.mp hd ▸ hc
  · refine hi.of_sublist hp hx (by rw [hv]) ?_
    rw [hu, post, Function.update_of_ne hd]

/-- A turn of the parent, with the oldest request. -/
theorem OnlyChild.parent (hi : w.OnlyChild) {src sock : Addr} {forks io : Bool} {buf : Packet}
    {l : List Datagram} {b : List Addr} (hok : buf.ok = true) (hq : w.up w.port = ⟨src, buf⟩ :: l) :
    (w.afterParent src l b (w.parent.run src buf sock forks io)).OnlyChild := by
  have hport := port_afterParent w src src l b sock buf forks io
  have hup : (w.afterParent src l b (w.parent.run src buf sock forks io)).up
      (w.afterParent src l b (w.parent.run src buf sock forks io)).port = l := by
    rw [hport]
    exact Function.update_self ..
  have hcxn2 := w.parent.run_cxn2 src sock forks io hok
  have hne : pktTypeCXN2 ≠ pktTypeCXN := by decide
  have horder := hi.order
  rw [hq, List.pairwise_cons] at horder
  refine ⟨by rw [hup]; exact horder.2, ?_⟩
  rw [hup]
  -- without a child from this turn
  have hkid (h : (w.parent.run src buf sock forks io).2.2 = none) :
      (w.afterParent src l b (w.parent.run src buf sock forks io)).children = w.children := by
    simp [afterParent, h]
  cases hv : (w.parent.run src buf sock forks io).2.2 with
  | some v =>
    obtain ⟨ht, hx, -⟩ := Parent.run_child (Option.mem_def.mpr hv)
    have hnil : w.children = [] := by
      rcases hi.one with h | ⟨-, h, -⟩
      · exact h
      · simp [hx] at h
    refine .inr ⟨⟨v, by simp [afterParent, hnil, hv]⟩, ?_, fun d hd => horder.1 d hd ht⟩
    change (w.parent.run src buf sock forks io).1.cxn2 = false
    rw [hcxn2, if_neg (by rw [ht]; exact hne), if_pos ht]
  | none =>
    rw [hkid hv]
    refine hi.one.imp_right ?_
    rintro ⟨h1, h2, h3⟩
    refine ⟨h1, ?_, fun d hd => h3 d ?_⟩
    · have hc : buf.type ≠ pktTypeCXN := h3 _ (hq ▸ List.mem_cons_self)
      change (w.parent.run src buf sock forks io).1.cxn2 = false
      rw [hcxn2, if_neg hc, h2, ite_self]
    · exact hq ▸ List.mem_cons_of_mem _ hd

theorem OnlyChild.step (hi : w.OnlyChild) (hw : w.Wf)
    (ho : w.client.mvState = .init → w.Opening) (h : Turn .lossy w e t) : t.OnlyChild := by
  -- what is left at the parent when another queue or this one got shorter
  have hsub {x : Addr} {l : List Datagram} (hl : l.Sublist (w.up x)) :
      (Function.update w.up x l w.port).Sublist (w.up w.port) := by
    by_cases hx : w.port = x
    · subst hx
      rwa [Function.update_self]
    · rw [Function.update_of_ne hx]
  cases h with
  | parentStops => exact hi.of_sublist rfl rfl rfl (List.Sublist.refl _)
  | parentDrops hok ha hs =>
    exact hi.of_sublist rfl rfl (by simp [afterParent]) (hsub hs.sublist)
  | parent hn hok ha ht => exact hi.parent hok (ht.head rfl)
  | childAct hk hd ht => exact hi.of_sublist rfl rfl (by simp [afterChild]) (List.Sublist.refl _)
  | childInit hk hs hal ha ht | childHear hk hs hal ha ht =>
    exact hi.of_sublist rfl rfl (by simp [afterChild]) (hsub (Arrival.recv_shed hal ha).sublist)
  | clientSends hs hsent =>
    obtain ⟨h0, h5, -⟩ := hw.client hs
    refine hi.of_sent rfl rfl rfl rfl ?_
    intro ht
    obtain ⟨h1, -, h3⟩ := (ho hs).first ((Client.pkt_type_cxn h0 h5).mp ht)
    refine ⟨h1, ?_⟩
    intro d hd
    rw [h3 _ d hd]
    simp [Client.pkt, memset, pktTypeCXN, pktTypeCXN2]
  | clientStops hs =>
    exact hi.of_sublist rfl rfl rfl (by simp [afterClient])
  | clientInit hn hs hsent hal ha ht =>
    exact hi.of_sublist rfl rfl rfl (by simp [afterClient])
  | @clientHear a sock wr io r l c out hs hal ha ht =>
    cases out with
    | none => exact hi.of_sublist rfl rfl rfl (by simp [afterClient])
    | some p =>
      refine hi.of_sent rfl rfl rfl rfl ?_
      intro hp
      rcases ht.out_reply with h | h <;> simp [h, pktTypeRR, pktTypeREJ, pktTypeCXN] at hp
  | noiseUp hn => exact hi.of_sublist rfl rfl rfl (hsub (hn.sublist rfl))
  | noiseDown hn => exact hi.of_sublist rfl rfl rfl (List.Sublist.refl _)

theorem onlyChild_of_reach {from_ : List UInt8} {bufsz winsz : Int32}
    (h : (system from_ bufsz winsz .lossy).Reach w) : w.OnlyChild := by
  refine h.invariant (I := OnlyChild) ?_ ?_
  · intro w h0
    exact ⟨by simp [h0.up], .inl h0.children⟩
  · intro _ _ _ hr hi hm hn
    have hw := wf_of_reach hr
    exact hi.step hw (opening_of_reach rfl hr) (next_cases hw hm hn)

end World

end Fileserver

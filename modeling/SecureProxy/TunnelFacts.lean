/-
`relay_tunnel` is a two-way pipe: what a side has been sent is, at every
moment, the beginning of what the other side sent, and a side is told of the
end of that only when it has all of it.

The loop goes on only after a chunk that was delivered in full. So between
two rounds both directions are in step, and a chunk cut short is the last.
-/
import SecureProxy.Tunnel

namespace SecureProxy

open Bytes

/-! ## The two directions of a log -/

/-- The chunks received from a side. -/
def chunksFrom (src : Side) (es : List TunnelEvent) : List (List Byte) :=
  es.filterMap fun
    | .received s chunk => if s = src then some chunk else none
    | _ => none

def receivedFrom (src : Side) (es : List TunnelEvent) : List Byte := (chunksFrom src es).flatten

/-- The calls of `write` on a side. -/
def callsTo (dst : Side) (es : List TunnelEvent) : List WriteCall :=
  es.filterMap fun
    | .written d call => if d = dst then some call else none
    | _ => none

def acceptedBy (dst : Side) (es : List TunnelEvent) : List Byte := acceptedBytes (callsTo dst es)

/-- How many bytes of the chunks lie in whole chunks among the first `n`. -/
def wholeBytes : Nat → List (List Byte) → Nat
  | _, [] => 0
  | n, c :: cs => if c.length ≤ n then c.length + wholeBytes (n - c.length) cs else 0

/-- The bytes of all chunks delivered in full, in both directions. -/
def deliveredTotal (es : List TunnelEvent) : Nat :=
  wholeBytes (acceptedBy .origin es).length (chunksFrom .client es) +
    wholeBytes (acceptedBy .client es).length (chunksFrom .origin es)

/-- The log of a faithful pipe. -/
structure Faithful (es : List TunnelEvent) : Prop where
  pipe : ∀ pre, pre <+: es → ∀ side, acceptedBy side pre <+: receivedFrom side.other pre
  ended : ∀ pre dst post, es = pre ++ .shutdownWrite dst :: post →
    acceptedBy dst pre = receivedFrom dst.other pre ∧ .shutdownWrite dst ∉ post ∧
      ∀ chunk, .received dst.other chunk ∉ post

@[simp] theorem chunksFrom_append (src : Side) (es es' : List TunnelEvent) :
    chunksFrom src (es ++ es') = chunksFrom src es ++ chunksFrom src es' :=
  List.filterMap_append

@[simp] theorem receivedFrom_append (src : Side) (es es' : List TunnelEvent) :
    receivedFrom src (es ++ es') = receivedFrom src es ++ receivedFrom src es' := by
  simp [receivedFrom]

@[simp] theorem acceptedBy_append (dst : Side) (es es' : List TunnelEvent) :
    acceptedBy dst (es ++ es') = acceptedBy dst es ++ acceptedBy dst es' := by
  simp [acceptedBy, callsTo, acceptedBytes]

theorem Side.other_other (side : Side) : side.other.other = side := by
  cases side <;> rfl

theorem Side.eq_or_other (side src : Side) : side = src ∨ side = src.other := by
  cases side <;> cases src <;> simp [Side.other]

/-- A chunk from `src`, and the calls that write it on. -/
def relayEvents (src : Side) (chunk : List Byte) (calls : List WriteCall) : List TunnelEvent :=
  .received src chunk :: calls.map (.written src.other)

@[simp] theorem chunksFrom_relayEvents (src : Side) (chunk : List Byte) (calls : List WriteCall) :
    chunksFrom src (relayEvents src chunk calls) = [chunk] := by
  simp [chunksFrom, relayEvents]

@[simp] theorem chunksFrom_relayEvents_other (src : Side) (chunk : List Byte) (calls : List WriteCall) :
    chunksFrom src.other (relayEvents src chunk calls) = [] := by
  cases src <;> simp [chunksFrom, relayEvents, Side.other]

@[simp] theorem acceptedBy_relayEvents (src : Side) (chunk : List Byte) (calls : List WriteCall) :
    acceptedBy src.other (relayEvents src chunk calls) = acceptedBytes calls := by
  have hcalls : callsTo src.other (relayEvents src chunk calls) = calls := by
    simp [callsTo, relayEvents, List.filterMap_map]
  rw [acceptedBy, hcalls]

@[simp] theorem acceptedBy_relayEvents_other (src : Side) (chunk : List Byte) (calls : List WriteCall) :
    acceptedBy src (relayEvents src chunk calls) = [] := by
  cases src <;> simp [acceptedBy, callsTo, relayEvents, Side.other, acceptedBytes]

theorem acceptedBytes_snoc (calls : List WriteCall) (c : WriteCall) :
    acceptedBytes calls <+: acceptedBytes (calls ++ [c]) := by
  simp [acceptedBytes]

/-! ## One more event -/

theorem Faithful.nil : Faithful [] := by
  refine ⟨fun pre hpre side => ?_, fun pre dst post h => ?_⟩
  · rw [List.prefix_nil.1 hpre]
    exact List.prefix_rfl
  · simp at h

theorem Faithful.snoc {es : List TunnelEvent} {e : TunnelEvent} (h : Faithful es)
    (hpipe : ∀ side, acceptedBy side (es ++ [e]) <+: receivedFrom side.other (es ++ [e]))
    (hend : ∀ dst, e = .shutdownWrite dst → acceptedBy dst es = receivedFrom dst.other es)
    (hover : ∀ dst, .shutdownWrite dst ∈ es → e ≠ .shutdownWrite dst ∧ ∀ chunk, e ≠ .received dst.other chunk) :
    Faithful (es ++ [e]) := by
  refine ⟨fun pre hpre side => ?_, fun pre dst post heq => ?_⟩
  · rcases List.prefix_concat_iff.1 hpre with rfl | hpre
    · exact hpipe side
    · exact h.pipe pre hpre side
  · rcases List.eq_nil_or_concat post with rfl | ⟨post, last, rfl⟩
    · obtain ⟨rfl, he⟩ := List.append_inj' heq rfl
      simp only [List.cons.injEq, and_true] at he
      exact ⟨hend dst he, by simp, by simp⟩
    · have heq : es ++ [e] = (pre ++ .shutdownWrite dst :: post) ++ [last] := by simpa using heq
      obtain ⟨rfl, he⟩ := List.append_inj' heq rfl
      obtain rfl : e = last := by simpa using he
      obtain ⟨hall, honce, hno⟩ := h.ended pre dst post rfl
      obtain ⟨hne, hread⟩ := hover dst (by simp)
      refine ⟨hall, ?_, fun chunk => ?_⟩
      · simp [honce, Ne.symm hne]
      · simp [hno chunk, Ne.symm (hread chunk)]

/-- Both directions are in step: all that was received has been delivered. -/
def InStep (es : List TunnelEvent) : Prop := ∀ side, acceptedBy side es = receivedFrom side.other es

/-- A chunk goes through, or the beginning of it. -/
theorem Faithful.relayed {es : List TunnelEvent} (h : Faithful es) (hin : InStep es) {src : Side} {chunk : List Byte}
    {calls : List WriteCall} (hcalls : acceptedBytes calls <+: chunk) (hopen : .shutdownWrite src.other ∉ es) :
    Faithful (es ++ relayEvents src chunk calls) := by
  have hpipe : ∀ calls, acceptedBytes calls <+: chunk → ∀ side,
      acceptedBy side (es ++ relayEvents src chunk calls) <+:
        receivedFrom side.other (es ++ relayEvents src chunk calls) := by
    intro calls hcalls side
    rw [acceptedBy_append, receivedFrom_append, hin side, List.prefix_append_right_inj]
    rcases Side.eq_or_other side src with rfl | rfl
    · simp
    · simpa [Side.other_other, receivedFrom] using hcalls
  induction calls using List.reverseRecOn with
  | nil =>
    refine h.snoc (hpipe [] (by simp [acceptedBytes])) (by simp) fun dst hdst => ?_
    refine ⟨by simp, fun c he => ?_⟩
    obtain ⟨rfl, -⟩ := TunnelEvent.received.inj he
    exact hopen (dst.other_other.symm ▸ hdst)
  | append_singleton calls c ih =>
    have hsnoc : es ++ relayEvents src chunk (calls ++ [c]) =
        (es ++ relayEvents src chunk calls) ++ [.written src.other c] := by
      simp [relayEvents]
    have hstep := hpipe (calls ++ [c]) hcalls
    rw [hsnoc] at hstep ⊢
    exact (ih ((acceptedBytes_snoc calls c).trans hcalls)).snoc hstep (by simp)
      fun dst _ => ⟨by simp, by simp⟩

/-- The end of a side's data is passed on. -/
theorem Faithful.shutdown {es : List TunnelEvent} (h : Faithful es) (hin : InStep es) {dst : Side}
    (hopen : .shutdownWrite dst ∉ es) : Faithful (es ++ [.shutdownWrite dst]) := by
  have hnone : ∀ side, acceptedBy side [.shutdownWrite dst] = [] ∧ receivedFrom side [.shutdownWrite dst] = [] :=
    fun side => ⟨rfl, rfl⟩
  refine h.snoc (fun side => ?_) (fun d he => ?_) fun d hd => ⟨fun he => ?_, by simp⟩
  · simp [(hnone _).1, (hnone _).2, hin side]
  · exact hin d
  · cases he
    exact hopen hd

/-! ## Whole chunks -/

theorem wholeBytes_append {cs : List (List Byte)} {n : Nat} (h : cs.flatten.length ≤ n) (cs' : List (List Byte)) :
    wholeBytes n (cs ++ cs') = cs.flatten.length + wholeBytes (n - cs.flatten.length) cs' := by
  induction cs generalizing n with
  | nil => simp
  | cons c cs ih =>
    rw [List.flatten_cons, List.length_append] at h
    rw [List.cons_append, wholeBytes, if_pos (by omega), ih (by omega), List.flatten_cons, List.length_append,
      Nat.sub_sub]
    omega

theorem wholeBytes_flatten (cs : List (List Byte)) : wholeBytes cs.flatten.length cs = cs.flatten.length := by
  have := wholeBytes_append (Nat.le_refl cs.flatten.length) []
  rwa [List.append_nil] at this

theorem InStep.delivered {es : List TunnelEvent} (h : InStep es) :
    deliveredTotal es = (receivedFrom .client es).length + (receivedFrom .origin es).length := by
  have h1 := h .origin
  have h2 := h .client
  simp only [deliveredTotal, Side.other] at h1 h2 ⊢
  rw [h1, h2]
  exact congrArg₂ _ (wholeBytes_flatten _) (wholeBytes_flatten _)

/-- A chunk that was cut short does not count. -/
theorem InStep.delivered_cut {es : List TunnelEvent} (h : InStep es) {src : Side} {chunk : List Byte} {calls : List WriteCall}
    (hcut : (acceptedBytes calls).length < chunk.length) :
    deliveredTotal (es ++ relayEvents src chunk calls) = deliveredTotal es := by
  have hcutBytes : ∀ side, wholeBytes (acceptedBy side.other (es ++ relayEvents side chunk calls)).length
      (chunksFrom side (es ++ relayEvents side chunk calls)) =
      wholeBytes (acceptedBy side.other es).length (chunksFrom side es) := by
    intro side
    have hin : (acceptedBy side.other es) = (chunksFrom side es).flatten := by
      rw [h side.other, side.other_other]
      rfl
    rw [acceptedBy_append, chunksFrom_append, acceptedBy_relayEvents, chunksFrom_relayEvents, hin, List.length_append,
      wholeBytes_append (by omega), wholeBytes_flatten, Nat.add_sub_cancel_left, wholeBytes, if_neg (by omega)]
    rfl
  have hother : ∀ side, wholeBytes (acceptedBy side (es ++ relayEvents side chunk calls)).length
      (chunksFrom side.other (es ++ relayEvents side chunk calls)) =
      wholeBytes (acceptedBy side es).length (chunksFrom side.other es) := by
    intro side
    simp
  unfold deliveredTotal
  cases src with
  | client => exact congrArg₂ _ (hcutBytes .client) (hother .client)
  | origin => exact congrArg₂ _ (hother .origin) (hcutBytes .origin)

/-! ## The loop -/

/-- Between two rounds. -/
structure Steady (st : TunnelState) : Prop where
  inStep : InStep st.events
  faithful : Faithful st.events
  closed : ∀ side : Side, .shutdownWrite side.other ∈ st.events → st.isOpen side = false
  total : st.total = deliveredTotal st.events
  writes : ∀ side, ∀ o ∈ st.writes side, o ≠ .ret 0

/-- At the end, also where a chunk was cut short. -/
structure Delivered (st : TunnelState) : Prop where
  faithful : Faithful st.events
  total : st.total = deliveredTotal st.events

theorem Steady.delivered {st : TunnelState} (h : Steady st) : Delivered st := ⟨h.faithful, h.total⟩

theorem Steady.open {st : TunnelState} (h : Steady st) {src : Side} (hopen : st.isOpen src = true) :
    .shutdownWrite src.other ∉ st.events := by
  intro hm
  rw [h.closed src hm] at hopen
  cases hopen

/-- A whole chunk keeps the directions in step. -/
theorem InStep.relayed {es : List TunnelEvent} (h : InStep es) {src : Side} {chunk : List Byte} {calls : List WriteCall}
    (hcalls : acceptedBytes calls = chunk) : InStep (es ++ relayEvents src chunk calls) := by
  intro side
  rw [acceptedBy_append, receivedFrom_append, h side]
  rcases Side.eq_or_other side src with rfl | rfl
  · simp [receivedFrom]
  · simp [Side.other_other, receivedFrom, hcalls]

theorem InStep.delivered_relayed {es : List TunnelEvent} (h : InStep es) {src : Side} {chunk : List Byte}
    {calls : List WriteCall} (hcalls : acceptedBytes calls = chunk) :
    deliveredTotal (es ++ relayEvents src chunk calls) = deliveredTotal es + chunk.length := by
  rw [(h.relayed hcalls).delivered, h.delivered]
  have hsrc : receivedFrom src (relayEvents src chunk calls) = chunk := by simp [receivedFrom]
  have hother : receivedFrom src.other (relayEvents src chunk calls) = [] := by simp [receivedFrom]
  cases src with
  | client =>
    simp only [Side.other] at hother
    simp only [receivedFrom_append, hsrc, hother, List.length_append, List.length_nil]
    omega
  | origin =>
    simp only [Side.other] at hother
    simp only [receivedFrom_append, hsrc, hother, List.length_append, List.length_nil]
    omega

theorem Steady.finish {st : TunnelState} (h : Steady st) {src : Side} (hopen : st.isOpen src = true) :
    Steady (st.finish src) := by
  have hevents : (st.finish src).events = st.events ++ [.shutdownWrite src.other] := by
    cases src <;> rfl
  have hnone : ∀ side, acceptedBy side [.shutdownWrite src.other] = [] ∧ chunksFrom side [.shutdownWrite src.other] = [] :=
    fun side => ⟨rfl, rfl⟩
  refine ⟨fun side => ?_, ?_, fun side hm => ?_, ?_, fun side => ?_⟩
  · have hreceived : receivedFrom side.other [.shutdownWrite src.other] = [] := rfl
    rw [hevents, acceptedBy_append, receivedFrom_append, (hnone side).1, hreceived, List.append_nil, List.append_nil]
    exact h.inStep side
  · rw [hevents]
    exact h.faithful.shutdown h.inStep (h.open hopen)
  · rw [hevents] at hm
    rcases List.mem_append.1 hm with hm | hm
    · have := h.closed side hm
      cases src <;> cases side <;> first | rfl | exact this
    · cases src <;> cases side <;> simp [Side.other, TunnelState.finish, TunnelState.note, TunnelState.isOpen] at hm ⊢
  · have htotal : (st.finish src).total = st.total := by cases src <;> rfl
    rw [htotal, h.total, hevents]
    simp [deliveredTotal, (hnone _).1, (hnone _).2]
  · have hwrites : (st.finish src).writes side = st.writes side := by cases src <;> cases side <;> rfl
    rw [hwrites]
    exact h.writes side

/-- The state once `send_all` has returned for a chunk from `src`. -/
def TunnelState.sent (st : TunnelState) (src : Side) (chunk : List Byte) (sent : SendResult) : TunnelState :=
  (st.setWrites sent.rest src.other).note (relayEvents src chunk sent.calls)

section

variable (st : TunnelState) (src : Side) (chunk : List Byte) (sent : SendResult)

theorem sent_events : (st.sent src chunk sent).events = st.events ++ relayEvents src chunk sent.calls := by
  cases src <;> rfl

theorem sent_total : (st.sent src chunk sent).total = st.total := by
  cases src <;> rfl

theorem sent_isOpen (side : Side) : (st.sent src chunk sent).isOpen side = st.isOpen side := by
  cases src <;> cases side <;> rfl

theorem sent_writes (side : Side) :
    (st.sent src chunk sent).writes side = if side = src.other then sent.rest else st.writes side := by
  cases src <;> cases side <;> rfl

end

/-- A chunk that got through. -/
theorem Steady.whole {st : TunnelState} (h : Steady st) {src : Side} (hopen : st.isOpen src = true) {chunk : List Byte}
    {sent : SendResult} (hall : acceptedBytes sent.calls = chunk) (hrest : ∀ o ∈ sent.rest, o ≠ .ret 0) :
    Steady { st.sent src chunk sent with total := (st.sent src chunk sent).total + chunk.length } := by
  have hprefix : acceptedBytes sent.calls <+: chunk := by rw [hall]
  refine ⟨?_, ?_, fun side hm => ?_, ?_, fun side o ho => ?_⟩
  · simp only [sent_events]
    exact h.inStep.relayed hall
  · simp only [sent_events]
    exact h.faithful.relayed h.inStep hprefix (h.open hopen)
  · simp only [sent_events] at hm
    have hold : .shutdownWrite side.other ∈ st.events := by simpa [relayEvents] using hm
    exact (sent_isOpen st src chunk sent side).trans (h.closed side hold)
  · simp only [sent_events, sent_total]
    rw [h.inStep.delivered_relayed hall, h.total]
  · have ho : o ∈ (st.sent src chunk sent).writes side := ho
    rw [sent_writes] at ho
    split at ho
    · exact hrest o ho
    · exact h.writes side o ho

theorem Steady.chunk {st : TunnelState} (h : Steady st) {src : Side} (hopen : st.isOpen src = true)
    (chunk : Chunk tunnelBufLen) :
    let res := st.relayFrom src (some (.data chunk))
    (res.1 = true → Steady res.2) ∧ Delivered res.2 ∧ res.2.isOpen src.other = st.isOpen src.other := by
  have hprefix := (sendAll_accepted chunk.bytes (st.writes src.other)).1
  obtain ⟨hcut, hwhole, hrest⟩ := @sendAllLoop_steady (st.writes src.other) 0 chunk.bytes (h.writes src.other)
  simp only [TunnelState.relayFrom]
  unfold sendAll at hprefix ⊢
  generalize sendAllLoop 0 chunk.bytes (st.writes src.other) = sent at hprefix hcut hwhole hrest ⊢
  cases hrc : sent.rc with
  | none =>
    -- the other side is gone: what it took of this chunk is not counted
    refine ⟨fun hgo => (nomatch hgo), ⟨?_, ?_⟩, sent_isOpen st src chunk.bytes sent _⟩
    · exact (sent_events st src chunk.bytes sent).symm ▸ h.faithful.relayed h.inStep hprefix (h.open hopen)
    · refine (sent_total st src chunk.bytes sent).trans ?_
      rw [h.total]
      exact ((congrArg deliveredTotal (sent_events st src chunk.bytes sent)).trans (h.inStep.delivered_cut (hcut hrc))).symm
  | some n =>
    have hsteady := h.whole hopen (hwhole (by simp [hrc])) hrest
    exact ⟨fun _ => hsteady, hsteady.delivered, sent_isOpen st src chunk.bytes sent _⟩

/-- One direction of a round. -/
theorem Steady.relayFrom {st : TunnelState} (h : Steady st) {src : Side} {r : Option (RecvOutcome tunnelBufLen)}
    (hopen : r ≠ none → st.isOpen src = true) :
    let res := st.relayFrom src r
    (res.1 = true → Steady res.2) ∧ Delivered res.2 ∧ res.2.isOpen src.other = st.isOpen src.other := by
  have hstay : (true = true → Steady st) ∧ Delivered st ∧ st.isOpen src.other = st.isOpen src.other :=
    ⟨fun _ => h, h.delivered, rfl⟩
  cases r with
  | none => exact hstay
  | some r =>
    have hsrc := hopen (by simp)
    have hend : (true = true → Steady (st.finish src)) ∧ Delivered (st.finish src) ∧
        (st.finish src).isOpen src.other = st.isOpen src.other :=
      ⟨fun _ => h.finish hsrc, (h.finish hsrc).delivered, by cases src <;> rfl⟩
    cases r with
    | eof => exact hend
    | err => exact hend
    | eagain => exact hstay
    | eintr => exact hstay
    | data chunk => exact h.chunk hsrc chunk

theorem tunnelLoop_delivered (rounds : List PollOutcome) {st : TunnelState} (h : Steady st) :
    Delivered (tunnelLoop rounds st) := by
  induction rounds generalizing st with
  | nil => exact h.delivered
  | cons round rounds ih =>
    unfold tunnelLoop
    split
    · exact h.delivered
    · cases round with
      | timeout => exact h.delivered
      | err => exact h.delivered
      | eintr => exact ih h
      | ready c o =>
        have hpolled : ∀ (isOpen : Bool) r, polled isOpen r ≠ none → isOpen = true := by
          intro isOpen r hr
          cases isOpen with
          | true => rfl
          | false => exact absurd rfl hr
        obtain ⟨hgo, hstop, hother⟩ := @Steady.relayFrom st h .client _ (hpolled st.clientOpen c)
        dsimp only
        split
        · exact hstop
        · rename_i hon
          have hmid := hgo (by simpa using hon)
          have horigin : (st.relayFrom .client (polled st.clientOpen c)).2.isOpen .origin = st.originOpen := hother
          obtain ⟨hgo', hstop', -⟩ := @Steady.relayFrom _ hmid .origin _
            fun hr => horigin.trans (hpolled st.originOpen o hr)
          split
          · exact hstop'
          · rename_i hon'
            exact ih (hgo' (by simpa using hon'))

/-- **`relay_tunnel` is a faithful two-way pipe**, and its value is the number
of bytes of the chunks it delivered in full. -/
theorem relayTunnel_faithful (idleSeconds : Nat) (rounds : List PollOutcome) (clientWrites originWrites : List WriteOutcome)
    (hclient : ∀ o ∈ clientWrites, o ≠ .ret 0) (horigin : ∀ o ∈ originWrites, o ≠ .ret 0) :
    let st := relayTunnel idleSeconds rounds clientWrites originWrites
    Faithful st.events ∧ st.total = deliveredTotal st.events := by
  have hsteady : Steady { timeoutMs := idleSeconds * 1000, clientWrites, originWrites } := by
    refine ⟨fun _ => rfl, .nil, by simp, rfl, fun side => ?_⟩
    cases side with
    | client => exact hclient
    | origin => exact horigin
  obtain ⟨hfaithful, htotal⟩ := tunnelLoop_delivered rounds hsteady
  exact ⟨hfaithful, htotal⟩

/-- The client sends two bytes and is done; the origin's answer does not get
through to it. -/
theorem relayTunnel_faithful_cut :
    let data := fun (s : String) (h : bytes s ≠ [] ∧ (bytes s).length ≤ tunnelBufLen) =>
      some (RecvOutcome.data (⟨bytes s, h.1, h.2⟩ : Chunk tunnelBufLen))
    let st := relayTunnel 120 [.ready (data "ab" (by decide)) none, .eintr, .ready (some .eof) (data "xyz" (by decide))]
      [.ret 2, .err] [.ret 1, .eintr, .ret 7]
    st.total = 2 ∧ acceptedBy .client st.events = bytes "xy" ∧ .shutdownWrite .origin ∈ st.events ∧
      Faithful st.events ∧ st.total = deliveredTotal st.events :=
  ⟨by decide, by decide, by decide, relayTunnel_faithful _ _ _ _ (by decide) (by decide)⟩

end SecureProxy

import Pasifika.ExEx.Notification
import Pasifika.OrderedMap.Groups
import Pasifika.Runs

/-! # The manager of execution extensions

The manager numbers the notifications of the node and keeps them in a buffer until every
extension has got them. An extension has a channel with room for one notification. It
reports the height that it has finished, and the manager leaves out commits whose tip is
not above that height: all are delivered in order if there is none. -/

namespace ExEx

open OrderedMap (swapRemove)
open List Option Nat Runs

/-! ## The manager -/

/-- `ExExHandle`: the channel to the extension, its events, and as a record what it has received,
    with the numbers. -/
structure Handle where
  channel : Option (ℕ × Notification)
  events : List BlockNumHash
  nextNotificationId : ℕ
  finishedHeight : Option BlockNumHash
  received : List (ℕ × Notification)
  deriving DecidableEq

/-- A new handle. -/
def Handle.new : Handle := ⟨none, [], 0, none, []⟩

/-- `ExExManager`, and as a record all notifications that were sent to it. -/
structure Manager where
  handles : List Handle
  handleRx : List Notification
  minId : ℕ
  nextId : ℕ
  buffer : List (ℕ × Notification)
  maxCapacity : ℕ
  sent : List Notification
  deriving DecidableEq

/-- `usize::MAX`. -/
def usizeMax : ℕ := 2 ^ 64 - 1

namespace Handle

/-- The loop over the events of an extension. -/
def handleEvents (h : Handle) : Handle :=
  { h with
    finishedHeight := h.events.getLast?.or h.finishedHeight
    events := [] }

/-- The notification is left out. -/
def skips (h : Handle) (n : Notification) : Bool :=
  match h.finishedHeight, n with
  | some finishedHeight, .chainCommitted new => decide (new.tip.number ≤ finishedHeight.number)
  | _, _ => false

/-- `send`; without room in the channel nothing happens. -/
def send (h : Handle) (entry : ℕ × Notification) : Handle :=
  if h.skips entry.2 then { h with nextNotificationId := entry.1 + 1 }
  else
    match h.channel with
    | some _ => h
    | none => { h with channel := some entry, nextNotificationId := entry.1 + 1 }

/-- One round of the loop over the handles; `none` is the panic for a notification not in the
    buffer. -/
def advance (minId : ℕ) (buffer : List (ℕ × Notification)) (h : Handle) : Option Handle :=
  if h.nextNotificationId < minId then none
  else
    match buffer[h.nextNotificationId - minId]? with
    | some entry => some (h.send entry)
    | none => some h

end Handle

namespace Manager

/-- `ExExManager::new`. -/
def new (exexs maxCapacity : ℕ) : Manager where
  handles := List.replicate exexs Handle.new
  handleRx := []
  minId := 0
  nextId := 0
  buffer := []
  maxCapacity
  sent := []

def pushNotification (m : Manager) (n : Notification) : Manager :=
  { m with buffer := m.buffer ++ [(m.nextId, n)], nextId := m.nextId + 1 }

/-- The loop that drains the notifications of the node, given all that are waiting. -/
def drain (m : Manager) : List Notification → Manager
  | [] => { m with handleRx := [] }
  | n :: rest =>
    if m.buffer.length < m.maxCapacity then drain (m.pushNotification n) rest
    else { m with handleRx := n :: rest }

/-- The loop that advances the handles, from the last one down. -/
def advanceHandles (minId : ℕ) (buffer : List (ℕ × Notification)) :
    ℕ → List Handle → Option (List Handle)
  | 0, handles => some handles
  | idx + 1, handles => do
      let exex ← handles[idx]?
      let exex ← exex.advance minId buffer
      advanceHandles minId buffer idx (swapRemove handles idx ++ [exex])

/-- `poll`, without the finalization of the log and the watch channels. -/
def poll (m : Manager) : Option Manager := do
  let m := { m with handles := m.handles.map Handle.handleEvents }
  let m := m.drain m.handleRx
  let handles ← advanceHandles m.minId m.buffer m.handles.length m.handles
  let minId := (handles.map (·.nextNotificationId)).foldl min usizeMax
  some { m with
    handles
    buffer := m.buffer.filter (fun entry => decide (minId ≤ entry.1))
    minId }

end Manager

/-! ## Runs -/

/-- A notification is sent, an extension reports a finished height or takes a notification, or the
    manager is polled. -/
inductive Op
  | notify (n : Notification)
  | finished (exex : ℕ) (height : BlockNumHash)
  | receive (exex : ℕ)
  | poll
  deriving DecidableEq

/-- An extension takes the notification out of its channel. -/
def Handle.receive (h : Handle) : Option Handle :=
  h.channel.map (fun entry => { h with channel := none, received := h.received ++ [entry] })

/-- The manager after something happened. -/
def Manager.step (m : Manager) : Op → Option Manager
  | .notify n => some { m with handleRx := m.handleRx ++ [n], sent := m.sent ++ [n] }
  | .finished exex height => do
      let h ← m.handles[exex]?
      some { m with handles := m.handles.set exex { h with events := h.events ++ [height] } }
  | .receive exex => do
      let h ← m.handles[exex]?
      let h ← h.receive
      some { m with handles := m.handles.set exex h }
  | .poll => m.poll

/-- A notification applies to the chain that the ones before it left, and a finished height is that
    of a block the extension has received. -/
def allowed (chain : List Block) (m : Manager) : Op → Bool
  | .notify n => (replay chain (m.sent ++ [n])).isSome
  | .finished exex height =>
    m.handles[exex]?.any (fun h =>
      h.received.any (fun entry => entry.2.committedBlocks.any (fun b => b.numHash == height)))
  | .receive _ => true
  | .poll => true

/-- The height that an extension has reported last. -/
def Handle.reported (h : Handle) : Option BlockNumHash := h.events.getLast?.or h.finishedHeight

/-- No extension has reported a height at or above the tip of a commit that it gets next. -/
def aboveFinished (m : Manager) : Op → Bool
  | .poll =>
    m.handles.all (fun h =>
      match m.sent[h.nextNotificationId]? with
      | some (.chainCommitted new) =>
        h.reported.all (fun height => decide (height.number < new.tip.number))
      | _ => true)
  | _ => true

/-! ## Deliveries -/

/-- Notifications with their numbers. -/
def numbered (l : List Notification) : List (ℕ × Notification) := l.zipIdx.map Prod.swap

variable (l : List Notification)

theorem numbered_concat (n : Notification) :
    numbered (l ++ [n]) = numbered l ++ [(l.length, n)] := by
  simp [numbered, zipIdx_append]

theorem getElem_numbered (i : ℕ) : (numbered l)[i]? = l[i]?.map (fun n => (i, n)) := by
  simp only [numbered, List.getElem?_map, List.getElem?_zipIdx, Option.map_map, zero_add]
  rfl

@[simp] theorem length_numbered : (numbered l).length = l.length := by
  simp [numbered]

theorem map_snd_numbered : (numbered l).map Prod.snd = l := by
  rw [numbered, List.map_map]
  exact List.zipIdx_map_fst 0 l

theorem take_numbered (k : ℕ) : (numbered l).take k = numbered (l.take k) := by
  refine ext_getElem? fun i => ?_
  rw [getElem?_take, getElem_numbered, getElem_numbered, getElem?_take]
  split <;> rfl

/-- **DELIVERED**: the extension has received everything below a number, except for what is in
    its channel. -/
structure Delivered (m : Manager) (h : Handle) : Prop where
  le_next : h.nextNotificationId ≤ m.nextId
  received : h.received ++ h.channel.toList = numbered (m.sent.take h.nextNotificationId)

/-- What the manager keeps. -/
structure Inv (m : Manager) : Prop where
  nextId_le : m.nextId ≤ m.sent.length
  handleRx : m.handleRx = m.sent.drop m.nextId
  minId_le : m.minId ≤ usizeMax
  handles : ∀ h ∈ m.handles, m.minId ≤ h.nextNotificationId ∧ Delivered m h
  buffer : m.handles ≠ [] → m.buffer = (numbered (m.sent.take m.nextId)).drop m.minId

namespace Inv

variable {m : Manager}

theorem init (exexs maxCapacity : ℕ) : Inv (Manager.new exexs maxCapacity) where
  nextId_le := le_refl _
  handleRx := rfl
  minId_le := zero_le _
  handles := by
    intro h hh
    obtain rfl : h = Handle.new := eq_of_mem_replicate hh
    exact ⟨le_refl _, le_refl _, rfl⟩
  buffer := fun _ => rfl

theorem notify (h : Inv m) (n : Notification) :
    Inv { m with handleRx := m.handleRx ++ [n], sent := m.sent ++ [n] } where
  nextId_le := le_trans h.nextId_le (by simp)
  handleRx := by
    rw [h.handleRx, drop_append_of_le_length h.nextId_le]
  minId_le := h.minId_le
  handles := fun g hg => by
    -- what was delivered does not depend on what is sent later
    obtain ⟨hid, hd⟩ := h.handles g hg
    refine ⟨hid, hd.le_next, ?_⟩
    rw [take_append_of_le_length (le_trans hd.le_next h.nextId_le)]
    exact hd.received
  buffer := fun hne => by
    rw [h.buffer hne, take_append_of_le_length h.nextId_le]

theorem set (h : Inv m) (hg : m.handles[exex]? = some g)
    (hnext : g'.nextNotificationId = g.nextNotificationId)
    (hreceived : g'.received ++ g'.channel.toList = g.received ++ g.channel.toList) :
    Inv { m with handles := m.handles.set exex g' } where
  nextId_le := h.nextId_le
  handleRx := h.handleRx
  minId_le := h.minId_le
  handles := by
    intro f hf
    rcases mem_or_eq_of_mem_set hf with hf | rfl
    · obtain ⟨hmin, hle, hd⟩ := h.handles f hf
      exact ⟨hmin, hle, hd⟩
    · obtain ⟨hmin, hle, hd⟩ := h.handles g (mem_of_getElem? hg)
      refine ⟨by rwa [hnext], by rwa [hnext], ?_⟩
      rw [hreceived, hnext]
      exact hd
  buffer := by
    intro hne
    exact h.buffer fun hnil => hne (by rw [hnil]; rfl)

theorem push (h : Inv { m with handleRx := n :: rest }) :
    Inv { m.pushNotification n with handleRx := rest } := by
  have hrx : n :: rest = m.sent.drop m.nextId := h.handleRx
  have hlt : m.nextId < m.sent.length := by
    by_contra hge
    rw [drop_of_length_le (Nat.le_of_not_lt hge)] at hrx
    nomatch hrx
  obtain ⟨hn, hrest⟩ : n = m.sent[m.nextId] ∧ rest = m.sent.drop (m.nextId + 1) := by
    rw [drop_eq_getElem_cons hlt] at hrx
    exact cons.inj hrx
  refine ⟨hlt, hrest, h.minId_le, fun g hg => ?_, fun hne => ?_⟩
  · obtain ⟨hmin, hle, hd⟩ := h.handles g hg
    exact ⟨hmin, le_succ_of_le hle, hd⟩
  obtain ⟨g, hg⟩ := exists_mem_of_ne_nil _ hne
  have hmin : m.minId ≤ m.nextId := le_trans (h.handles g hg).1 (h.handles g hg).2.le_next
  have htake : m.sent.take (m.nextId + 1) = m.sent.take m.nextId ++ [n] := by
    rw [hn, take_append_getElem]
  have hlength : (m.sent.take m.nextId).length = m.nextId := length_take_of_le h.nextId_le
  have hbuffer := h.buffer hne
  show m.buffer ++ [(m.nextId, n)] = (numbered (m.sent.take (m.nextId + 1))).drop m.minId
  rw [htake, numbered_concat, hlength, drop_append_of_le_length (by simp [hlength, hmin]), hbuffer]

theorem drain (waiting : List Notification) (h : Inv { m with handleRx := waiting }) :
    Inv (m.drain waiting) ∧ (m.drain waiting).handles = m.handles ∧
      (m.drain waiting).sent = m.sent := by
  induction waiting generalizing m with
  | nil => exact ⟨h, rfl, rfl⟩
  | cons n rest ih =>
    rw [Manager.drain]
    split
    · exact ih h.push
    · exact ⟨h, rfl, rfl⟩

end Inv

/-! ## Advancing the handles -/

/-- **EVERY HANDLE IS VISITED ONCE**, although `swap_remove` moves them: the first ones are to come,
    the others were advanced. -/
theorem advanceHandles_perm (idx : ℕ) (todo done : List Handle) (hlength : todo.length = idx)
    (hadvance : ∀ h ∈ todo, h.advance minId buffer = some (f h)) :
    ∃ handles, Manager.advanceHandles minId buffer idx (todo ++ done) = some handles ∧
      handles.Perm (todo.map f ++ done) := by
  induction idx generalizing todo done with
  | zero =>
    obtain rfl := length_eq_zero_iff.mp hlength
    exact ⟨done, rfl, Perm.refl _⟩
  | succ idx ih =>
    obtain ⟨todo, exex, rfl⟩ := (eq_nil_or_concat' todo).resolve_left
      (by rintro rfl; nomatch hlength)
    obtain rfl : todo.length = idx := by simpa using hlength
    have hget : (todo ++ [exex] ++ done)[todo.length]? = some exex := by simp
    -- what is left of the handles is split at the same place
    obtain ⟨done', hswap, hperm⟩ : ∃ done', swapRemove (todo ++ [exex] ++ done) todo.length ++
        [f exex] = todo ++ done' ∧ done'.Perm (f exex :: done) := by
      rcases eq_nil_or_concat' done with rfl | ⟨done, last, rfl⟩
      · refine ⟨[f exex], ?_, Perm.refl _⟩
        simp [swapRemove]
      refine ⟨last :: done ++ [f exex], ?_, ?_⟩
      · have hset : (todo ++ [exex] ++ (done ++ [last])).set todo.length last =
            todo ++ last :: done ++ [last] := by simp
        have hlast : (todo ++ [exex] ++ (done ++ [last])).getLast? = some last := by
          rw [← append_assoc, getLast?_concat]
        rw [swapRemove, hlast]
        show ((todo ++ [exex] ++ (done ++ [last])).set todo.length last).dropLast ++ _ = _
        rw [hset, dropLast_concat, append_assoc]
      · refine (perm_append_singleton _ _).trans (Perm.cons _ ?_)
        exact (perm_append_singleton last done).symm
    obtain ⟨handles, hrest, hhandles⟩ := ih todo done' rfl
      (fun h hh => hadvance h (mem_append_left _ hh))
    refine ⟨handles, ?_, ?_⟩
    · rw [Manager.advanceHandles, hget]
      show (exex.advance minId buffer).bind _ = _
      rw [hadvance exex (by simp), bind_some, hswap]
      exact hrest
    · refine hhandles.trans ?_
      rw [map_append, append_assoc]
      exact (hperm.append_left _)

variable {g : Handle} {m : Manager}

theorem Inv.buffer_eq (h : Inv m) (hg : g ∈ m.handles) :
    m.buffer[g.nextNotificationId - m.minId]? =
      if g.nextNotificationId < m.nextId then
        m.sent[g.nextNotificationId]?.map fun n => (g.nextNotificationId, n)
      else none := by
  have hmin := (h.handles g hg).1
  rw [h.buffer (ne_nil_of_mem hg), getElem?_drop, Nat.add_sub_cancel' hmin,
    getElem_numbered, getElem?_take]
  split <;> rfl

theorem Inv.advance (h : Inv m) (hg : g ∈ m.handles)
    (hskip : ∀ n, m.sent[g.nextNotificationId]? = some n → g.skips n = false) :
    ∃ g', g.advance m.minId m.buffer = some g' ∧ Delivered m g' ∧
      g.nextNotificationId ≤ g'.nextNotificationId := by
  obtain ⟨hmin, hd⟩ := h.handles g hg
  rw [Handle.advance, if_neg (not_lt.mpr hmin), h.buffer_eq hg]
  by_cases hlt : g.nextNotificationId < m.nextId
  · have hlength := lt_of_lt_of_le hlt h.nextId_le
    have hn := getElem?_eq_getElem hlength
    rw [if_pos hlt, hn]
    refine ⟨_, rfl, ?_⟩
    show Delivered m (g.send _) ∧ _ ≤ (g.send _).nextNotificationId
    rw [Handle.send, if_neg (by simp [hskip _ hn])]
    cases hchannel : g.channel with
    | some entry => exact ⟨hd, le_rfl⟩
    | none =>
      refine ⟨⟨hlt, ?_⟩, le_succ _⟩
      have hreceived := hd.received
      rw [hchannel, toList_none, append_nil] at hreceived
      show g.received ++ [_] = numbered (m.sent.take (g.nextNotificationId + 1))
      rw [hreceived, ← take_append_getElem hlength, numbered_concat,
        length_take_of_le (le_of_lt hlength)]
  · rw [if_neg hlt]
    exact ⟨g, rfl, hd, le_rfl⟩

theorem foldl_min_le : ∀ (l : List ℕ) n, l.foldl min n ≤ n ∧ ∀ a ∈ l, l.foldl min n ≤ a := by
  intro l
  induction l with
  | nil => exact fun n => ⟨le_refl n, by simp⟩
  | cons a l ih =>
    intro n
    obtain ⟨hle, hall⟩ := ih (min n a)
    refine ⟨le_trans hle (min_le_left n a), fun b hb => ?_⟩
    rcases mem_cons.mp hb with rfl | hb
    · exact le_trans hle (min_le_right n b)
    · exact hall b hb

theorem le_foldl_min (l : List ℕ) (n : ℕ) (hn : k ≤ n) (hall : ∀ a ∈ l, k ≤ a) :
    k ≤ l.foldl min n := by
  induction l generalizing n with
  | nil => exact hn
  | cons a l ih =>
    exact ih (min n a) (Nat.le_min.mpr ⟨hn, hall a mem_cons_self⟩)
      (fun b hb => hall b (mem_cons_of_mem _ hb))

theorem filter_numbered (hle : k ≤ k') :
    ((numbered l).drop k).filter (fun entry => decide (k' ≤ entry.1)) = (numbered l).drop k' := by
  induction l using reverseRecOn with
  | nil => simp [numbered]
  | append_singleton l n ih =>
    rw [numbered_concat]
    by_cases hk : k ≤ l.length
    · rw [drop_append_of_le_length (by simpa using hk), filter_append, ih]
      by_cases hk' : k' ≤ l.length
      · rw [drop_append_of_le_length (by simpa using hk')]
        simp [hk']
      · have hnil : (numbered l).drop k' = [] := drop_of_length_le (by simp; omega)
        rw [hnil, drop_of_length_le (by simp; omega)]
        simp [hk']
    · rw [drop_of_length_le (by simp; omega), drop_of_length_le (by simp; omega)]
      rfl

theorem Inv.handleEvents (h : Inv m) :
    Inv { m with handles := m.handles.map Handle.handleEvents } where
  nextId_le := h.nextId_le
  handleRx := h.handleRx
  minId_le := h.minId_le
  handles := by
    intro g hg
    obtain ⟨g0, hg0, rfl⟩ := mem_map.mp hg
    obtain ⟨hmin, hle, hd⟩ := h.handles g0 hg0
    exact ⟨hmin, hle, hd⟩
  buffer := fun hne => h.buffer fun hnil => hne (by rw [hnil]; rfl)

theorem skips_eq_false (hguard : aboveFinished m .poll = true) (hg : g ∈ m.handles)
    (hn : m.sent[g.nextNotificationId]? = some n) :
    g.handleEvents.skips n = false := by
  have hcond := all_eq_true.mp hguard g hg
  rw [hn] at hcond
  cases n with
  | chainCommitted new =>
    change g.reported.all _ = true at hcond
    have hfinished : g.handleEvents.finishedHeight = g.reported := rfl
    cases hreported : g.reported with
    | none => simp [Handle.skips, hfinished, hreported]
    | some height =>
      rw [hreported] at hcond
      simpa [Handle.skips, hfinished, hreported] using hcond
  | chainReorged old new | chainReverted old => simp [Handle.skips]

theorem Inv.advanceHandles (h : Inv m)
    (hskip : ∀ g ∈ m.handles, ∀ n, m.sent[g.nextNotificationId]? = some n → g.skips n = false) :
    ∃ handles, Manager.advanceHandles m.minId m.buffer m.handles.length m.handles = some handles ∧
      Inv { m with
        handles
        buffer := m.buffer.filter (fun entry =>
          decide ((handles.map (·.nextNotificationId)).foldl min usizeMax ≤ entry.1))
        minId := (handles.map (·.nextNotificationId)).foldl min usizeMax } := by
  have hadvance : ∀ g ∈ m.handles, g.advance m.minId m.buffer =
      some ((g.advance m.minId m.buffer).getD g) ∧
      Delivered m ((g.advance m.minId m.buffer).getD g) ∧
      m.minId ≤ ((g.advance m.minId m.buffer).getD g).nextNotificationId := by
    intro g hg
    obtain ⟨g', hg', hd, hle⟩ := h.advance hg (hskip g hg)
    rw [hg']
    exact ⟨rfl, hd, le_trans (h.handles g hg).1 hle⟩
  obtain ⟨handles, hloop, hperm⟩ := advanceHandles_perm m.handles.length m.handles [] rfl
    (fun g hg => (hadvance g hg).1)
  rw [append_nil] at hloop hperm
  have hall : ∀ g ∈ handles, Delivered m g ∧ m.minId ≤ g.nextNotificationId := by
    intro g hg
    obtain ⟨g0, hg0, rfl⟩ := mem_map.mp (hperm.mem_iff.mp hg)
    exact (hadvance g0 hg0).2
  obtain ⟨hmax, hmin⟩ := foldl_min_le (handles.map (·.nextNotificationId)) usizeMax
  have hge : m.minId ≤ (handles.map (·.nextNotificationId)).foldl min usizeMax := by
    refine le_foldl_min _ _ h.minId_le fun a ha => ?_
    obtain ⟨g, hg, rfl⟩ := mem_map.mp ha
    exact (hall g hg).2
  refine ⟨handles, hloop, h.nextId_le, h.handleRx, hmax, fun g hg => ?_, fun hne => ?_⟩
  · obtain ⟨hle, hd⟩ := (hall g hg).1
    exact ⟨hmin _ (mem_map_of_mem hg), hle, hd⟩
  · have hne' : m.handles ≠ [] := by
      intro hnil
      rw [hnil] at hperm
      exact hne (perm_nil.mp hperm)
    rw [h.buffer hne']
    exact filter_numbered _ hge

/-- **A POLL** that leaves nothing out. -/
theorem Inv.poll (h : Inv m) (hguard : aboveFinished m .poll = true) (hpoll : m.poll = some m') :
    Inv m' ∧ m'.sent = m.sent := by
  obtain ⟨hdrain, hhandles, hsent⟩ := Inv.drain m.handleRx
    (m := { m with handles := m.handles.map Handle.handleEvents }) h.handleEvents
  obtain ⟨handles, hloop, hinv⟩ := hdrain.advanceHandles (by
    intro g hg n hn
    rw [hhandles] at hg
    obtain ⟨g0, hg0, rfl⟩ := mem_map.mp hg
    rw [hsent] at hn
    exact skips_eq_false hguard hg0 hn)
  rw [Manager.poll] at hpoll
  obtain ⟨handles', hloop', hm'⟩ := bind_eq_some_iff.mp hpoll
  cases hloop.symm.trans hloop'
  cases hm'
  exact ⟨hinv, hsent⟩

/-! ## What extensions receive -/

/-- **SERVED**: notifications are received in order and none twice; only a commit of blocks already
    received is left out; and the chain that the extension sees is one that the node had. -/
structure Served (chain : List Block) (m : Manager) (h : Handle) : Prop where
  inOrder : (h.received.map Prod.fst).Pairwise (· < ·)
  sent : ∀ entry ∈ h.received, m.sent[entry.1]? = some entry.2
  leftOut : ∀ id < h.nextNotificationId, id ∉ (h.received ++ h.channel.toList).map Prod.fst →
    ∃ new, m.sent[id]? = some (.chainCommitted new) ∧
      ∀ b ∈ new.blocks, ∃ entry ∈ h.received, b ∈ entry.2.committedBlocks
  chain : ∃ k c, replay chain (h.received.map Prod.snd) = some c ∧
    replay chain (m.sent.take k) = some c

theorem numbered_pairwise : ((numbered l).map Prod.fst).Pairwise (· < ·) := by
  have hfst : (numbered l).map Prod.fst = range' 0 l.length := by
    rw [numbered, List.map_map]
    exact zipIdx_map_snd 0 l
  rw [hfst]
  exact pairwise_lt_range'

theorem Delivered.served (hd : Delivered m h) (hle : m.nextId ≤ m.sent.length)
    (hreplay : replay chain m.sent = some c) :
    Served chain m h := by
  have hlength := le_trans hd.le_next hle
  -- the channel is the last of what was delivered
  have hreceived : h.received = numbered (m.sent.take h.received.length) := by
    have htake := congrArg (take h.received.length) hd.received
    rw [take_left, take_numbered, take_take] at htake
    have hmin : min h.received.length h.nextNotificationId = h.received.length := by
      have := congrArg length hd.received
      simp only [length_append, length_numbered, length_take] at this
      omega
    rwa [hmin] at htake
  refine ⟨?_, ?_, ?_, ?_⟩
  · rw [hreceived]
    exact numbered_pairwise _
  · intro entry hentry
    rw [hreceived] at hentry
    obtain ⟨i, hi⟩ := getElem?_of_mem hentry
    rw [getElem_numbered] at hi
    obtain ⟨n, hn, rfl⟩ := map_eq_some_iff.mp hi
    rw [getElem?_take] at hn
    split at hn
    · exact hn
    · nomatch hn
  · intro id hid hnot
    refine absurd ?_ hnot
    have hlt : id < m.sent.length := lt_of_lt_of_le hid hlength
    have hget : (numbered (m.sent.take h.nextNotificationId))[id]? = some (id, m.sent[id]) := by
      rw [getElem_numbered, getElem?_take_of_lt hid, getElem?_eq_getElem hlt]
      rfl
    rw [hd.received]
    exact mem_map.mpr ⟨_, mem_of_getElem? hget, rfl⟩
  · obtain ⟨c', hc'⟩ := replay_take hreplay h.received.length
    refine ⟨h.received.length, c', ?_, hc'⟩
    rw [hreceived, map_snd_numbered]
    simpa using hc'

/-- **EVERY EXTENSION IS SERVED** in every run in which none has reported a height at or above the
    tip of the commit that it gets next. -/
theorem delivered_in_order (chain : List Block) (exexs maxCapacity : ℕ) {m : Manager}
    (hreached : Runs.ReachedBy (fun m op m' => Manager.step m op = some m')
      (fun m op => allowed chain m op = true ∧ aboveFinished m op = true)
      (Manager.new exexs maxCapacity) m) :
    ∀ h ∈ m.handles, Served chain m h := by
  have hinv : Inv m ∧ ∃ c, replay chain m.sent = some c := by
    refine ReachedBy.invariant (I := fun m => Inv m ∧ ∃ c, replay chain m.sent = some c)
      ⟨Inv.init exexs maxCapacity, chain, rfl⟩ ?_ hreached
    rintro m op m' _ ⟨ih, hchain⟩ ⟨hallowed, habove⟩ hstep
    cases op with
    | notify n =>
      cases hstep
      exact ⟨ih.notify n, isSome_iff_exists.mp hallowed⟩
    | finished exex height =>
      obtain ⟨g, hg, hm'⟩ := bind_eq_some_iff.mp hstep
      cases hm'
      exact ⟨ih.set hg rfl rfl, hchain⟩
    | receive exex =>
      obtain ⟨g, hg, hm'⟩ := bind_eq_some_iff.mp hstep
      obtain ⟨g', hg', hm'⟩ := bind_eq_some_iff.mp hm'
      cases hm'
      obtain ⟨entry, hentry, rfl⟩ := map_eq_some_iff.mp hg'
      exact ⟨ih.set hg rfl (by simp [hentry]), hchain⟩
    | poll =>
      obtain ⟨hinv, hsent⟩ := ih.poll habove hstep
      exact ⟨hinv, by rwa [hsent]⟩
  obtain ⟨hinv, c, hc⟩ := hinv
  exact fun h hh => (hinv.handles h hh).2.served hinv.nextId_le hc

/-- Two blocks are committed and finished, and then reverted. -/
def sampleOps : List Op :=
  [.notify (.chainCommitted sampleChain), .poll, .receive 0, .finished 0 ⟨2, 2⟩,
    .notify (.chainReverted sampleChain), .poll, .receive 0]

theorem delivered_in_order_sample :
    ∃ m, Runs.ReachedBy (fun m op m' => Manager.step m op = some m')
      (fun m op => allowed [⟨0, 0, 0⟩] m op = true ∧ aboveFinished m op = true)
      (Manager.new 1 8) m ∧
      (∃ h ∈ m.handles, h.received.length = 2) ∧
      ∀ h ∈ m.handles, Served [⟨0, 0, 0⟩] m h := by
  obtain ⟨m, hreached, hcheck⟩ := exists_of_next Manager.step
    (fun m op => allowed [⟨0, 0, 0⟩] m op && aboveFinished m op) sampleOps (Manager.new 1 8)
    (fun m => m.handles.any fun h => h.received.length == 2) (by decide +kernel)
  simp only [Bool.and_eq_true] at hreached
  refine ⟨m, hreached, ?_, delivered_in_order [⟨0, 0, 0⟩] 1 8 hreached⟩
  simpa using hcheck

/-- **A COMMIT IS LOST**: the new block 1 is not above the height 2, reported for a block that was
    reverted. -/
theorem commit_lost_after_revert :
    ∃ m, Runs.ReachedBy (fun m op m' => Manager.step m op = some m')
      (fun m op => allowed [⟨0, 0, 0⟩] m op = true) (Manager.new 1 8) m ∧
      ¬∀ h ∈ m.handles, Served [⟨0, 0, 0⟩] m h := by
  obtain ⟨m, hreached, hcheck⟩ := exists_of_next Manager.step (allowed [⟨0, 0, 0⟩])
    (sampleOps ++ [.notify (.chainCommitted sampleFork), .poll]) (Manager.new 1 8)
    (fun m => m.handles.any (fun h => h.nextNotificationId == 3 &&
      h.received == numbered [.chainCommitted sampleChain, .chainReverted sampleChain] &&
      h.channel == none && m.sent[2]? == some (.chainCommitted sampleFork)))
    (by decide +kernel)
  refine ⟨m, hreached, fun hserved => ?_⟩
  obtain ⟨h, hh, hcheck⟩ := any_eq_true.mp hcheck
  simp only [Bool.and_eq_true, beq_iff_eq] at hcheck
  obtain ⟨⟨⟨hnext, hreceived⟩, hchannel⟩, hsent⟩ := hcheck
  obtain ⟨new, hnew, hblocks⟩ := (hserved h hh).leftOut 2 (by omega)
    (by rw [hreceived, hchannel]; decide)
  cases hsent.symm.trans hnew
  obtain ⟨entry, hentry, hmem⟩ := hblocks ⟨1, 3, 0⟩ (by decide)
  rw [hreceived] at hentry
  revert entry
  decide

end ExEx

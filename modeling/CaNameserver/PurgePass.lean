import CaNameserver.ServerSpec
import Mathlib.Data.List.Forall2
import Mathlib.Data.List.Nodup
import Mathlib.Order.Monotone.Basic

/-!
# When the purge comes back, and what it has done then

The loop of `processPendingList` leaves a node behind in one turn, except for a heartbeat that has
waited too long.  Its search is repeated, and the loop looks at the node again --- but only a
repetition that succeeds sets the time of the node anew.  If the channel is closed or cannot be
cleared, nothing changes and the loop makes the same turn again; if the channel has been cleared
and the new search fails, the next turn uses a channel that is gone.

So the pass depends on what the library answers, turn after turn: a stream `env`, of which
`first env k` are the answers of the first `k` turns, and `later env k` those that come after
them.

## One turn

For a node that is young, a search that has expired, and a heartbeat that is left as it is,
renewed or lost, there is an equation each (`purgeTurn_of_young`, `purgeTurn_of_search`,
`purgeTurn_of_blocks`, `purgeTurn_of_renews`, `purgeTurn_of_lost`).  They need that every node
holds an open channel of its own (`Own`), which each turn keeps.

## Coming back

`Relieved` follows the list: an expired heartbeat gets, after some answers that leave it as it is,
one that renews its search, and the rest of the list is relieved by the answers after that; any
other node takes one answer.  A pass that has come back was relieved, by induction on the number
of turns (`relieved_of_purgeLoop`).  A pass that is relieved comes back, by induction on the
nodes, and at a heartbeat on the number of answers before the one that renews it
(`exists_purgeLoop_of_relieved`).

## What has been done

`Swept` relates the list and the channels before and after, node by node, where the library always
succeeds: a search that has expired is gone with its channel, a heartbeat that has expired has a
new channel and a new time, and the others stay.  `Passes` counts the turns and the channels that
are cleared on the way.  `neverAfter` has the counts of the names that have been given up.

* `processPendingList_returns_iff`: the pass comes back exactly if it is relieved.
* `processPendingList_purges`: what it has done, within two turns for each node.
* `processPendingList_hangs`: a channel that stays closed.
-/

namespace CaNameserver

open CStr Fallible

namespace Server

/-! ## Turn after turn -/

/-- The node has waited too long. -/
def expired (now tooLong : ℕ) (nn : Namenode) : Bool := decide (nn.otime + tooLong < now)

/-- The answers of the first `k` turns. -/
def first (env : ℕ → CaAnswers) (k : ℕ) : List CaAnswers := (List.range k).map env

/-- The answers after the first `k` turns. -/
def later (env : ℕ → CaAnswers) (k : ℕ) : ℕ → CaAnswers := fun n => env (n + k)

/-- The clock never runs backwards, from the time `now` on. -/
structure Clock (now : ℕ) (env : ℕ → CaAnswers) : Prop where
  start : now ≤ (env 0).time
  mono : Monotone fun n => (env n).time

/-- The turn leaves a heartbeat as it is: its channel is closed, or cannot be cleared. -/
def CaAnswers.Blocks (a : CaAnswers) : Prop := a.caState = 3 ∨ a.clear = .failed

/-- The turn gives a heartbeat a new search. -/
structure CaAnswers.Renews (a : CaAnswers) : Prop where
  caState : a.caState ≠ 3
  clear : a.clear = .normal
  search : a.search = .normal

/-- The pending nodes hold open channels, each its own. -/
structure Own (l : List Namenode) (ca : Ca) : Prop where
  opened : ∀ nn ∈ l, ∃ ch, ca.chans nn.chd = some ch
  nodup : (l.map Namenode.chd).Nodup
  fresh : ca.Fresh

theorem first_succ (env : ℕ → CaAnswers) (k : ℕ) :
    first env (k + 1) = env 0 :: first (later env 1) k := by
  rw [first, List.range_succ_eq_map, List.map_cons, List.map_map]
  rfl

theorem later_later (env : ℕ → CaAnswers) (j k : ℕ) :
    later (later env j) k = later env (k + j) := by
  funext n
  simp only [later, Nat.add_assoc]

theorem Clock.later {now : ℕ} {env : ℕ → CaAnswers} (h : Clock now env) (k : ℕ) :
    Clock now (later env k) where
  start := h.start.trans (h.mono (Nat.zero_le (0 + k)))
  mono := fun _ _ hmn => h.mono (Nat.add_le_add_right hmn k)

section Own

variable {l : List Namenode} {ca : Ca} {nn : Namenode} {ch : Channel}

theorem Own.chd_ne (h : Own (nn :: l) ca) {x : Namenode} (hx : x ∈ l) : x.chd ≠ nn.chd := by
  have hnd := h.nodup
  rw [List.map_cons, List.nodup_cons] at hnd
  intro heq
  exact hnd.1 (heq ▸ List.mem_map_of_mem hx)

theorem Own.lt_nextChid (h : Own l ca) (hnn : nn ∈ l) : nn.chd < ca.nextChid := by
  obtain ⟨ch, hch⟩ := h.opened nn hnn
  exact h.fresh nn.chd ch hch

theorem Own.tail (h : Own (nn :: l) ca) : Own l ca := by
  have hnd := h.nodup
  rw [List.map_cons, List.nodup_cons] at hnd
  exact ⟨fun x hx => h.opened x (List.mem_cons_of_mem nn hx), hnd.2, h.fresh⟩

/-- The first node goes with its channel. -/
theorem Own.clear (h : Own (nn :: l) ca) : Own l (ca.clear nn.chd) := by
  refine ⟨fun x hx => ?_, h.tail.nodup, fun c ch hc => ?_⟩
  · rw [Ca.clear_chans, if_neg (h.chd_ne hx)]
    exact h.tail.opened x hx
  · rw [Ca.clear_chans] at hc
    split_ifs at hc
    exact h.fresh c ch hc

/-- The first node gets a new channel for its own. -/
theorem Own.renew (h : Own (nn :: l) ca) (time : ℕ) :
    Own ({ nn with chd := ca.nextChid, otime := time } :: l) (ca.renew nn.chd ch) := by
  have hne : ∀ x ∈ l, x.chd ≠ ca.nextChid := fun x hx => (h.tail.lt_nextChid hx).ne
  refine ⟨fun x hx => ?_, ?_, fun c ch' hc => ?_⟩
  · rcases List.mem_cons.mp hx with rfl | hx
    · exact ⟨ch, by rw [Ca.renew_chans, if_pos rfl]⟩
    · rw [Ca.renew_chans, if_neg (hne x hx), if_neg (h.chd_ne hx)]
      exact h.tail.opened x hx
  · rw [List.map_cons, List.nodup_cons]
    refine ⟨fun hmem => ?_, h.tail.nodup⟩
    obtain ⟨x, hx, heq⟩ := List.mem_map.mp hmem
    exact hne x hx heq
  · rw [Ca.renew_chans] at hc
    split_ifs at hc with hnew
    · exact hnew ▸ Nat.lt_succ_self _
    · exact Nat.lt_succ_of_lt (h.fresh c ch' hc)

end Own

/-! ## One turn -/

section Turn

variable {now tooLong : ℕ} {a : CaAnswers} {pg : Purge} {pNN : Namenode} {rest : List Namenode}
  {ch : Channel}

/-- A node that is young enough is passed. -/
theorem purgeTurn_of_young (h : expired now tooLong pNN = false) :
    purgeTurn now tooLong a pg pNN rest = .ok { pg with kept := pNN :: pg.kept, rest := rest } := by
  rw [purgeTurn, if_neg (of_decide_eq_false h)]

/-- A search that has expired is dropped. -/
theorem purgeTurn_of_search (h : expired now tooLong pNN = true) (hreb : pNN.rebroadcast = false)
    (hch : pg.ca.chans pNN.chd = some ch) :
    purgeTurn now tooLong a pg pNN rest = .ok { pg with
      rest := rest
      ca := if a.caState = 3 then pg.ca else
        match a.clear with
        | .failed => pg.ca
        | .normal => pg.ca.clear pNN.chd
      neverResTbl := neverCount pg.neverResTbl pNN.name } := by
  rw [purgeTurn, if_pos (of_decide_eq_true h), if_neg (by simp [hreb]), expire,
    Ca.getChan_eq_ok_iff.mpr hch]
  rfl

/-- A heartbeat stays as it is. -/
theorem purgeTurn_of_blocks (h : expired now tooLong pNN = true) (hreb : pNN.rebroadcast = true)
    (hch : pg.ca.chans pNN.chd = some ch) (ha : a.Blocks) :
    purgeTurn now tooLong a pg pNN rest = .ok pg := by
  rw [purgeTurn, if_pos (of_decide_eq_true h), if_pos hreb, rebroadcast,
    Ca.getChan_eq_ok_iff.mpr hch]
  rcases ha with hstate | hclear
  · exact if_pos hstate
  · simp only [hclear]
    exact ite_self _

/-- A heartbeat has a new search. -/
theorem purgeTurn_of_renews (h : expired now tooLong pNN = true) (hreb : pNN.rebroadcast = true)
    (hch : pg.ca.chans pNN.chd = some ch) (ha : a.Renews) :
    purgeTurn now tooLong a pg pNN rest = .ok { pg with
      ca := pg.ca.renew pNN.chd ⟨pNN.name, .WDprocessChangeConnectionEvent, ch.puser, none⟩
      rest := { pNN with chd := pg.ca.nextChid, otime := a.time } :: rest } := by
  rw [purgeTurn, if_pos (of_decide_eq_true h), if_pos hreb, rebroadcast,
    Ca.getChan_eq_ok_iff.mpr hch]
  simp only [ha.clear, ha.search, Ca.clear_nextChid, Ca.clear_search_setChan]
  exact if_neg ha.caState

/-- A heartbeat has lost its channel. -/
theorem purgeTurn_of_lost (h : expired now tooLong pNN = true) (hreb : pNN.rebroadcast = true)
    (hch : pg.ca.chans pNN.chd = some ch) (hblocks : ¬ a.Blocks) (hs : a.search = .failed) :
    purgeTurn now tooLong a pg pNN rest = .ok { pg with ca := pg.ca.clear pNN.chd } := by
  obtain ⟨hstate, hclear⟩ := not_or.mp hblocks
  rw [purgeTurn, if_pos (of_decide_eq_true h), if_pos hreb, rebroadcast,
    Ca.getChan_eq_ok_iff.mpr hch]
  cases hc : a.clear with
  | failed => exact absurd hc hclear
  | normal =>
      simp only [hs]
      exact if_neg hstate

/-- The loop makes one turn and goes on. -/
theorem purgeLoop_first_succ (env : ℕ → CaAnswers) (k : ℕ) (hrest : pg.rest = pNN :: rest) :
    purgeLoop now tooLong (first env (k + 1)) pg =
      purgeTurn now tooLong (env 0) pg pNN rest >>=
        purgeLoop now tooLong (first (later env 1) k) := by
  rw [first_succ, purgeLoop]
  simp only [hrest]

theorem purgeLoop_first_zero (env : ℕ → CaAnswers) (hrest : pg.rest ≠ []) :
    purgeLoop now tooLong (first env 0) pg = .error .noReturn := by
  rw [first, List.range_zero, List.map_nil, purgeLoop, if_neg hrest]

theorem purgeLoop_of_nil (answers : List CaAnswers) (hrest : pg.rest = []) :
    purgeLoop now tooLong answers pg = .ok pg := by
  cases answers with
  | nil => rw [purgeLoop, if_pos hrest]
  | cons a answers =>
      rw [purgeLoop]
      simp only [hrest]

end Turn

/-! ## When the pass comes back -/

/-- Every expired heartbeat gets, after answers that leave it as it is, one that renews its search;
any other node takes one turn, and so does a heartbeat once it is renewed. -/
def Relieved (now tooLong : ℕ) : List Namenode → (ℕ → CaAnswers) → Prop
  | [], _ => True
  | nn :: rest, env =>
      if expired now tooLong nn && nn.rebroadcast then
        ∃ j, (∀ i < j, (env i).Blocks) ∧ (env j).Renews ∧
          Relieved now tooLong rest (later env (j + 2))
      else Relieved now tooLong rest (later env 1)

section Relieved

variable {now tooLong : ℕ} {env : ℕ → CaAnswers} {nn : Namenode} {rest : List Namenode}

theorem relieved_of_search (h : expired now tooLong nn = false ∨ nn.rebroadcast = false) :
    Relieved now tooLong (nn :: rest) env ↔ Relieved now tooLong rest (later env 1) := by
  rw [Relieved, if_neg]
  rcases h with h | h
  · simp [h]
  · simp [h]

theorem relieved_of_heartbeat (h : expired now tooLong nn = true) (hreb : nn.rebroadcast = true) :
    Relieved now tooLong (nn :: rest) env ↔ ∃ j, (∀ i < j, (env i).Blocks) ∧ (env j).Renews ∧
      Relieved now tooLong rest (later env (j + 2)) := by
  rw [Relieved, if_pos]
  rw [h, hreb]
  rfl

/-- A node whose time has just been set is not expired. -/
theorem expired_of_clock (hclock : Clock now env) (nn : Namenode) (c : Chid) (n : ℕ) :
    expired now tooLong { nn with chd := c, otime := (env n).time } = false := by
  have hle : now ≤ (env n).time := hclock.start.trans (hclock.mono (Nat.zero_le n))
  exact decide_eq_false (Nat.not_lt.mpr (hle.trans (Nat.le_add_right _ tooLong)))

/-- A pass that looks at an expired heartbeat without a channel goes wrong. -/
theorem purgeLoop_of_gone (env : ℕ → CaAnswers) (k : ℕ) {pg pg' : Purge}
    (hrest : pg.rest = nn :: rest) (hexp : expired now tooLong nn = true)
    (hreb : nn.rebroadcast = true) (hgone : pg.ca.chans nn.chd = none) :
    purgeLoop now tooLong (first env k) pg ≠ .ok pg' := by
  intro h
  cases k with
  | zero =>
      rw [purgeLoop_first_zero env (by simp [hrest])] at h
      cases h
  | succ k =>
      rw [purgeLoop_first_succ env k hrest, bind_eq_ok_iff] at h
      obtain ⟨pg₁, hturn, -⟩ := h
      rw [purgeTurn, if_pos (of_decide_eq_true hexp), if_pos hreb, rebroadcast,
        bind_eq_ok_iff] at hturn
      obtain ⟨ch, hch, -⟩ := hturn
      rw [Ca.getChan_eq_ok_iff, hgone] at hch
      cases hch

/-- **A pass that has come back was relieved.**  By induction on the turns. -/
theorem relieved_of_purgeLoop {k : ℕ} {env : ℕ → CaAnswers} {pg pg' : Purge}
    (hown : Own pg.rest pg.ca) (hclock : Clock now env)
    (h : purgeLoop now tooLong (first env k) pg = .ok pg') :
    Relieved now tooLong pg.rest env := by
  induction k generalizing env pg with
  | zero =>
      cases hrest : pg.rest with
      | nil => trivial
      | cons pNN rest =>
          rw [purgeLoop_first_zero env (by simp [hrest])] at h
          cases h
  | succ k ih =>
      cases hrest : pg.rest with
      | nil => trivial
      | cons pNN rest =>
          rw [purgeLoop_first_succ env k hrest, bind_eq_ok_iff] at h
          obtain ⟨pg₁, hturn, h⟩ := h
          rw [hrest] at hown
          obtain ⟨ch, hch⟩ := hown.opened pNN (List.mem_cons_self ..)
          have hnext := hclock.later 1
          cases hexp : expired now tooLong pNN with
          | false =>
              rw [purgeTurn_of_young hexp] at hturn
              cases hturn
              exact (relieved_of_search (Or.inl hexp)).mpr (ih hown.tail hnext h)
          | true =>
              cases hreb : pNN.rebroadcast with
              | false =>
                  rw [purgeTurn_of_search hexp hreb hch] at hturn
                  cases hturn
                  refine (relieved_of_search (Or.inr hreb)).mpr (ih ?_ hnext h)
                  show Own rest (if _ then _ else _)
                  split_ifs
                  · exact hown.tail
                  · cases (env 0).clear with
                    | failed => exact hown.tail
                    | normal => exact hown.clear
              | true =>
                  rw [relieved_of_heartbeat hexp hreb]
                  by_cases hblocks : (env 0).Blocks
                  · -- the same turn again, one answer later
                    rw [purgeTurn_of_blocks hexp hreb hch hblocks] at hturn
                    cases hturn
                    have hagain := ih (hrest ▸ hown) hnext h
                    rw [hrest, relieved_of_heartbeat hexp hreb] at hagain
                    obtain ⟨j, hj, hren, hrel⟩ := hagain
                    refine ⟨j + 1, fun i hi => ?_, hren, ?_⟩
                    · cases i with
                      | zero => exact hblocks
                      | succ i => exact hj i (Nat.lt_of_succ_lt_succ hi)
                    · rw [later_later] at hrel
                      exact hrel
                  · cases hs : (env 0).search with
                    | failed =>
                        -- the channel is gone, and the next turn uses it
                        rw [purgeTurn_of_lost hexp hreb hch hblocks hs] at hturn
                        cases hturn
                        refine absurd h (purgeLoop_of_gone _ _ hrest hexp hreb ?_)
                        rw [Ca.clear_chans, if_pos rfl]
                    | normal =>
                        have hren : (env 0).Renews := by
                          obtain ⟨hstate, hclear⟩ := not_or.mp hblocks
                          refine ⟨hstate, ?_, hs⟩
                          cases hc : (env 0).clear with
                          | failed => exact absurd hc hclear
                          | normal => rfl
                        rw [purgeTurn_of_renews hexp hreb hch hren] at hturn
                        cases hturn
                        have hrel := ih (hown.renew (env 0).time) hnext h
                        rw [relieved_of_search (Or.inl (expired_of_clock hclock pNN _ 0)),
                          later_later] at hrel
                        exact ⟨0, nofun, hren, hrel⟩

/-- One turn, and the pass comes back from there. -/
theorem exists_purgeLoop_of_turn {pg pg₁ : Purge} (hrest : pg.rest = nn :: rest)
    (hturn : purgeTurn now tooLong (env 0) pg nn rest = .ok pg₁)
    (h : ∃ k, Defined (purgeLoop now tooLong (first (later env 1) k) pg₁)) :
    ∃ k, Defined (purgeLoop now tooLong (first env k) pg) := by
  obtain ⟨k, pg', hk⟩ := h
  refine ⟨k + 1, pg', ?_⟩
  rw [purgeLoop_first_succ env k hrest, hturn]
  exact hk

/-- **A pass that is relieved comes back.**  By induction on the nodes, and at a heartbeat on the
answers that leave it as it is. -/
theorem exists_purgeLoop_of_relieved {rest : List Namenode} {env : ℕ → CaAnswers} {pg : Purge}
    (hrest : pg.rest = rest) (hown : Own rest pg.ca) (hclock : Clock now env)
    (h : Relieved now tooLong rest env) :
    ∃ k, Defined (purgeLoop now tooLong (first env k) pg) := by
  induction rest generalizing env pg with
  | nil => exact ⟨0, pg, purgeLoop_of_nil _ hrest⟩
  | cons pNN rest ih =>
      obtain ⟨ch, hch⟩ := hown.opened pNN (List.mem_cons_self ..)
      cases hexp : expired now tooLong pNN with
      | false =>
          rw [relieved_of_search (Or.inl hexp)] at h
          exact exists_purgeLoop_of_turn hrest (purgeTurn_of_young hexp)
            (ih rfl hown.tail (hclock.later 1) h)
      | true =>
          cases hreb : pNN.rebroadcast with
          | false =>
              rw [relieved_of_search (Or.inr hreb)] at h
              refine exists_purgeLoop_of_turn hrest (purgeTurn_of_search hexp hreb hch)
                (ih rfl ?_ (hclock.later 1) h)
              show Own rest (if _ then _ else _)
              split_ifs
              · exact hown.tail
              · cases (env 0).clear with
                | failed => exact hown.tail
                | normal => exact hown.clear
          | true =>
              rw [relieved_of_heartbeat hexp hreb] at h
              obtain ⟨j, hblocks, hren, hrel⟩ := h
              induction j generalizing env with
              | zero =>
                  -- the search is renewed, and the next turn passes the node
                  refine exists_purgeLoop_of_turn hrest (purgeTurn_of_renews hexp hreb hch hren) ?_
                  refine exists_purgeLoop_of_turn rfl
                    (purgeTurn_of_young (expired_of_clock hclock pNN _ 0)) ?_
                  rw [later_later]
                  exact ih rfl (hown.renew (env 0).time).tail (hclock.later 2) hrel
              | succ j ihj =>
                  refine exists_purgeLoop_of_turn hrest
                    (purgeTurn_of_blocks hexp hreb hch (hblocks 0 (Nat.succ_pos j))) ?_
                  refine ihj (hclock.later 1)
                    (fun i hi => hblocks (i + 1) (Nat.succ_lt_succ hi)) hren ?_
                  rw [later_later]
                  exact hrel

end Relieved

/-! ## What a pass has done -/

/-- The channels that `ca_clear_channel` is called for, turn after turn. -/
def purgeClears (now tooLong : ℕ) : List CaAnswers → Purge → List Chid
  | [], _ => []
  | a :: answers, pg =>
      match pg.rest with
      | [] => []
      | pNN :: rest =>
          (if expired now tooLong pNN && a.caState != 3 then [pNN.chd] else []) ++
            match purgeTurn now tooLong a pg pNN rest with
            | .ok pg => purgeClears now tooLong answers pg
            | .error _ => []

/-- The node is a search that has expired. -/
def dropped (now tooLong : ℕ) (nn : Namenode) : Bool := expired now tooLong nn && !nn.rebroadcast

/-- What becomes of a node that stays: a heartbeat that has expired gets a new channel with the
name and the `puser` of the old one. -/
inductive Stays (now tooLong : ℕ) (ca ca' : Ca) (nn : Namenode) : Namenode → Prop
  | young (h : expired now tooLong nn = false) : Stays now tooLong ca ca' nn nn
  | renewed {ch : Channel} {c : Chid} {time : ℕ} (h : expired now tooLong nn = true)
      (hreb : nn.rebroadcast = true) (hch : ca.chans nn.chd = some ch) (hc : ca.nextChid ≤ c)
      (hnew : ca'.chans c = some ⟨nn.name, .WDprocessChangeConnectionEvent, ch.puser, none⟩)
      (htime : now ≤ time) : Stays now tooLong ca ca' nn { nn with chd := c, otime := time }

/-- The list `l'` and the channels `ca'` are what the purge makes of `l` and `ca`. -/
structure Swept (now tooLong : ℕ) (l : List Namenode) (ca : Ca) (l' : List Namenode) (ca' : Ca) :
    Prop where
  nodes : List.Forall₂ (Stays now tooLong ca ca') (l.filter fun nn => !dropped now tooLong nn) l'
  cleared : ∀ nn ∈ l, expired now tooLong nn = true → ca'.chans nn.chd = none
  others : ∀ c, c < ca.nextChid → (∀ nn ∈ l, expired now tooLong nn = true → nn.chd ≠ c) →
    ca'.chans c = ca.chans c
  /-- a new channel is that of a heartbeat -/
  new : ∀ c ch, ca.nextChid ≤ c → ca'.chans c = some ch →
    ∃ nn ∈ l', nn.chd = c ∧ nn.rebroadcast = true
  nextChid : ca.nextChid ≤ ca'.nextChid

/-- The `never` table after the expired searches of a list have been counted. -/
def neverAfter (now tooLong : ℕ) (l : List Namenode) (neverResTbl : Name → Option ℕ) :
    Name → Option ℕ :=
  (l.filter (dropped now tooLong)).foldl (fun t nn => neverCount t nn.name) neverResTbl

section Swept

variable {now tooLong : ℕ} {nn : Namenode} {l l' : List Namenode} {ca ca' ca'' : Ca} {ch : Channel}

theorem Swept.nil (ca : Ca) (hfresh : ca.Fresh) : Swept now tooLong [] ca [] ca where
  nodes := .nil
  cleared := nofun
  others := fun _ _ _ => rfl
  new := fun c ch hc hch => absurd (hfresh c ch hch) (Nat.not_lt.mpr hc)
  nextChid := le_rfl

/-- The nodes behind one whose channel has changed stay what they are. -/
theorem Swept.behind (h : Swept now tooLong l ca' l' ca'') (hnext : ca.nextChid ≤ ca'.nextChid)
    (hsame : ∀ x ∈ l, ca'.chans x.chd = ca.chans x.chd) :
    List.Forall₂ (Stays now tooLong ca ca'') (l.filter fun nn => !dropped now tooLong nn) l' := by
  have hmem : ∀ x ∈ l.filter (fun nn => !dropped now tooLong nn), x ∈ l := fun x hx =>
    (List.mem_filter.mp hx).1
  refine ((List.forall₂_and_left _ _).mpr ⟨hmem, h.nodes⟩).imp ?_
  rintro x x' ⟨hx, hstays⟩
  cases hstays with
  | young hexp => exact .young hexp
  | renewed hexp hreb hch hc hnew htime =>
      exact .renewed hexp hreb ((hsame x hx).symm.trans hch) (hnext.trans hc) hnew htime

/-- A node that is young enough is passed. -/
theorem Swept.young (h : Swept now tooLong l ca l' ca') (hexp : expired now tooLong nn = false) :
    Swept now tooLong (nn :: l) ca (nn :: l') ca' where
  nodes := by
    rw [List.filter_cons, if_pos (by simp [dropped, hexp])]
    exact .cons (.young hexp) h.nodes
  cleared := by
    intro x hx hxexp
    rcases List.mem_cons.mp hx with rfl | hx
    · rw [hexp] at hxexp
      cases hxexp
    · exact h.cleared x hx hxexp
  others := fun c hc hall => h.others c hc fun x hx => hall x (List.mem_cons_of_mem nn hx)
  new := by
    intro c ch hc hch
    obtain ⟨x, hx, hxc⟩ := h.new c ch hc hch
    exact ⟨x, List.mem_cons_of_mem nn hx, hxc⟩
  nextChid := h.nextChid

/-- An expired search goes with its channel. -/
theorem Swept.search (h : Swept now tooLong l (ca.clear nn.chd) l' ca') (hown : Own (nn :: l) ca)
    (hexp : expired now tooLong nn = true) (hreb : nn.rebroadcast = false) :
    Swept now tooLong (nn :: l) ca l' ca' where
  nodes := by
    rw [List.filter_cons, if_neg (by simp [dropped, hexp, hreb])]
    refine h.behind le_rfl fun x hx => ?_
    rw [Ca.clear_chans, if_neg (hown.chd_ne hx)]
  cleared := by
    intro x hx hxexp
    rcases List.mem_cons.mp hx with rfl | hx
    · rw [h.others x.chd (hown.lt_nextChid (List.mem_cons_self ..)) fun y hy _ => hown.chd_ne hy,
        Ca.clear_chans, if_pos rfl]
    · exact h.cleared x hx hxexp
  others := by
    intro c hc hall
    rw [h.others c hc fun x hx => hall x (List.mem_cons_of_mem nn hx), Ca.clear_chans,
      if_neg (hall nn (List.mem_cons_self ..) hexp).symm]
  new := h.new
  nextChid := h.nextChid

/-- An expired heartbeat gives its channel up for a new one. -/
theorem Swept.heartbeat {time : ℕ} (h : Swept now tooLong l (ca.renew nn.chd
      ⟨nn.name, .WDprocessChangeConnectionEvent, ch.puser, none⟩) l' ca') (hown : Own (nn :: l) ca)
    (hexp : expired now tooLong nn = true) (hreb : nn.rebroadcast = true)
    (hch : ca.chans nn.chd = some ch) (htime : now ≤ time) :
    Swept now tooLong (nn :: l) ca ({ nn with chd := ca.nextChid, otime := time } :: l') ca' where
  nodes := by
    rw [List.filter_cons, if_pos (by simp [dropped, hreb])]
    refine .cons (.renewed hexp hreb hch le_rfl ?_ htime) (h.behind (Nat.le_succ _) fun x hx => ?_)
    · rw [h.others ca.nextChid (Nat.lt_succ_self _) fun x hx _ => (hown.tail.lt_nextChid hx).ne,
        Ca.renew_chans, if_pos rfl]
    · rw [Ca.renew_chans, if_neg (hown.tail.lt_nextChid hx).ne, if_neg (hown.chd_ne hx)]
  cleared := by
    intro x hx hxexp
    rcases List.mem_cons.mp hx with rfl | hx
    · have hlt := hown.lt_nextChid (List.mem_cons_self ..)
      rw [h.others x.chd (Nat.lt_succ_of_lt hlt) fun y hy _ => hown.chd_ne hy, Ca.renew_chans,
        if_neg hlt.ne, if_pos rfl]
    · exact h.cleared x hx hxexp
  others := by
    intro c hc hall
    rw [h.others c (Nat.lt_succ_of_lt hc) fun x hx => hall x (List.mem_cons_of_mem nn hx),
      Ca.renew_chans, if_neg hc.ne, if_neg (hall nn (List.mem_cons_self ..) hexp).symm]
  new := by
    intro c ch' hc hch'
    rcases Nat.eq_or_lt_of_le hc with rfl | hlt
    · exact ⟨_, List.mem_cons_self .., rfl, hreb⟩
    · obtain ⟨x, hx, hxc⟩ := h.new c ch' hlt hch'
      exact ⟨x, List.mem_cons_of_mem _ hx, hxc⟩
  nextChid := (Nat.le_succ _).trans h.nextChid

end Swept

/-- The pass needs `t` turns at most, ends with `pg'` and clears the channels `cs`. -/
def Passes (now tooLong : ℕ) (env : ℕ → CaAnswers) (pg : Purge) (t : ℕ) (pg' : Purge)
    (cs : List Chid) : Prop :=
  ∀ k, t ≤ k → purgeLoop now tooLong (first env k) pg = .ok pg' ∧
    purgeClears now tooLong (first env k) pg = cs

section Passes

variable {now tooLong t : ℕ} {env : ℕ → CaAnswers} {pg pg₁ pg' : Purge} {nn : Namenode}
  {rest : List Namenode} {cs : List Chid}

theorem Passes.nil (env : ℕ → CaAnswers) (hrest : pg.rest = []) :
    Passes now tooLong env pg 0 pg [] := by
  intro k _
  refine ⟨purgeLoop_of_nil _ hrest, ?_⟩
  cases first env k with
  | nil => rfl
  | cons a answers =>
      rw [purgeClears]
      simp only [hrest]

theorem Passes.mono {t' : ℕ} (h : Passes now tooLong env pg t pg' cs) (ht : t ≤ t') :
    Passes now tooLong env pg t' pg' cs := fun k hk => h k (ht.trans hk)

/-- One turn, and the rest of the pass. -/
theorem Passes.turn (hrest : pg.rest = nn :: rest) (hstate : (env 0).caState ≠ 3)
    (hturn : purgeTurn now tooLong (env 0) pg nn rest = .ok pg₁)
    (h : Passes now tooLong (later env 1) pg₁ t pg' cs) :
    Passes now tooLong env pg (t + 1) pg'
      ((if expired now tooLong nn then [nn.chd] else []) ++ cs) := by
  intro k hk
  obtain ⟨k, rfl⟩ := Nat.exists_eq_add_of_le' (Nat.one_le_of_lt hk)
  obtain ⟨hloop, hclears⟩ := h k (Nat.le_of_succ_le_succ hk)
  constructor
  · rw [purgeLoop_first_succ env k hrest, hturn]
    exact hloop
  · rw [first_succ, purgeClears]
    simp only [hrest, hturn, hclears, bne_iff_ne.mpr hstate, Bool.and_true]

end Passes

/-- **The sweep**: with a library that always succeeds, two turns for each node are enough, and the
channels of the expired nodes are cleared one after the other. -/
theorem exists_swept {now tooLong : ℕ} {l : List Namenode} {env : ℕ → CaAnswers} {pg : Purge}
    (hrest : pg.rest = l) (hown : Own l pg.ca) (hclock : Clock now env)
    (hgood : ∀ n, (env n).Renews) :
    ∃ l' ca', Swept now tooLong l pg.ca l' ca' ∧ Passes now tooLong env pg (2 * l.length)
      ⟨l'.reverse ++ pg.kept, [], ca', neverAfter now tooLong l pg.neverResTbl⟩
      ((l.filter (expired now tooLong)).map Namenode.chd) := by
  induction l generalizing env pg with
  | nil =>
      refine ⟨[], pg.ca, .nil pg.ca hown.fresh, ?_⟩
      have hpasses : Passes now tooLong env pg 0 pg [] := .nil env hrest
      obtain ⟨_, _, _, _⟩ := pg
      cases hrest
      exact hpasses
  | cons nn l ih =>
      obtain ⟨ch, hch⟩ := hown.opened nn (List.mem_cons_self ..)
      have hstate := (hgood 0).caState
      have hnext := hclock.later 1
      cases hexp : expired now tooLong nn with
      | false =>
          let pg₁ : Purge := { pg with kept := nn :: pg.kept, rest := l }
          have hturn : purgeTurn now tooLong (env 0) pg nn l = .ok pg₁ := purgeTurn_of_young hexp
          obtain ⟨l', ca', hswept, hpasses⟩ :=
            @ih (later env 1) pg₁ rfl hown.tail hnext fun n => hgood (n + 1)
          refine ⟨nn :: l', ca', hswept.young hexp, ?_⟩
          have hall := hpasses.turn hrest hstate hturn
          rw [hexp] at hall
          have hmono := hall.mono (Nat.le_succ (2 * l.length + 1))
          simpa [hexp, neverAfter, dropped, pg₁, Nat.mul_succ] using hmono
      | true =>
          cases hreb : nn.rebroadcast with
          | false =>
              let pg₁ : Purge := { pg with
                rest := l
                ca := pg.ca.clear nn.chd
                neverResTbl := neverCount pg.neverResTbl nn.name }
              have hturn : purgeTurn now tooLong (env 0) pg nn l = .ok pg₁ := by
                rw [purgeTurn_of_search hexp hreb hch, if_neg hstate]
                simp only [(hgood 0).clear]
                rfl
              obtain ⟨l', ca', hswept, hpasses⟩ :=
                @ih (later env 1) pg₁ rfl hown.clear hnext fun n => hgood (n + 1)
              refine ⟨l', ca', hswept.search hown hexp hreb, ?_⟩
              have hall := hpasses.turn hrest hstate hturn
              rw [hexp] at hall
              have hmono := hall.mono (Nat.le_succ (2 * l.length + 1))
              simpa [hexp, hreb, neverAfter, dropped, pg₁, Nat.mul_succ] using hmono
          | true =>
              -- the search is renewed, and the next turn passes the node
              let nn' : Namenode := { nn with chd := pg.ca.nextChid, otime := (env 0).time }
              let pg₁ : Purge := { pg with
                ca := pg.ca.renew nn.chd ⟨nn.name, .WDprocessChangeConnectionEvent, ch.puser, none⟩
                rest := nn' :: l }
              let pg₂ : Purge := { pg₁ with kept := nn' :: pg.kept, rest := l }
              have hturn₁ : purgeTurn now tooLong (env 0) pg nn l = .ok pg₁ :=
                purgeTurn_of_renews hexp hreb hch (hgood 0)
              have hyoung : expired now tooLong nn' = false := expired_of_clock hclock nn _ 0
              have hturn₂ : purgeTurn now tooLong (later env 1 0) pg₁ nn' l = .ok pg₂ :=
                purgeTurn_of_young hyoung
              obtain ⟨l', ca', hswept, hpasses⟩ := @ih (later (later env 1) 1) pg₂ rfl
                (hown.renew (env 0).time).tail (hnext.later 1) fun n => hgood (n + 1 + 1)
              refine ⟨nn' :: l', ca', hswept.heartbeat hown hexp hreb hch hclock.start, ?_⟩
              have hrest₁ : pg₁.rest = nn' :: l := rfl
              have hall := (hpasses.turn hrest₁ (hgood 1).caState hturn₂).turn hrest hstate hturn₁
              rw [hexp, hyoung] at hall
              simpa [hexp, hreb, neverAfter, dropped, pg₁, pg₂, Nat.mul_succ] using hall

/-- A count that has grown by `k`; it is absent before the first. -/
def raised (k : ℕ) (o : Option ℕ) : Option ℕ := if k = 0 then o else some (o.getD 0 + k)

theorem raised_raised_one (k : ℕ) (o : Option ℕ) :
    raised k (some (o.getD 0 + 1)) = raised (k + 1) o := by
  unfold raised
  cases k with
  | zero => rfl
  | succ k =>
      rw [if_neg (Nat.succ_ne_zero k), if_neg (Nat.succ_ne_zero (k + 1)), Option.getD_some]
      congr 1
      omega

/-- The count of a name grows by the number of its searches that have expired. -/
theorem neverAfter_apply {now tooLong : ℕ} (l : List Namenode) (neverResTbl : Name → Option ℕ)
    (n : Name) : neverAfter now tooLong l neverResTbl n =
      raised (l.countP fun nn => dropped now tooLong nn && nn.name == n) (neverResTbl n) := by
  induction l generalizing neverResTbl with
  | nil => rfl
  | cons nn l ih =>
      cases hdrop : dropped now tooLong nn with
      | false =>
          rw [neverAfter, List.filter_cons, if_neg (by simp [hdrop]),
            List.countP_cons_of_neg (by simp [hdrop])]
          exact ih neverResTbl
      | true =>
          rw [neverAfter, List.filter_cons, if_pos hdrop, List.foldl_cons]
          have htail := ih (neverCount neverResTbl nn.name)
          rw [neverAfter] at htail
          rw [htail]
          by_cases hn : nn.name = n
          · rw [List.countP_cons_of_pos (by simp [hdrop, hn]), neverCount, hn, Function.update_self,
              raised_raised_one]
          · rw [List.countP_cons_of_neg (by simp [hn]), neverCount,
              Function.update_of_ne (Ne.symm hn)]

/-! ## The pending nodes keep their channels -/

theorem Own.perm {l l' : List Namenode} {ca : Ca} (h : Own l ca) (hp : l.Perm l') : Own l' ca where
  opened := fun nn hnn => h.opened nn (hp.mem_iff.mpr hnn)
  nodup := (hp.map Namenode.chd).nodup_iff.mp h.nodup
  fresh := h.fresh

/-- A turn keeps the channels and their nodes together, unless a new search fails. -/
theorem Own.purgeStep {a : CaAnswers} {l l' : List Namenode} {ca ca' : Ca} (h : Own l ca)
    (hs : PurgeStep a ca l l' ca') (ha : a.search = .normal) : Own l' ca' := by
  cases hs with
  | same => exact h
  | lost _ _ hsearch =>
      rw [ha] at hsearch
      cases hsearch
  | renewed =>
      exact ((h.perm List.perm_middle).renew a.time).perm List.perm_middle.symm
  | expired => exact (h.perm List.perm_middle).clear
  | forgotten => exact (h.perm List.perm_middle).tail

/-! ## The whole pass -/

/-- What the purge makes of the server when the library always succeeds. -/
structure Purged (now tooLong : ℕ) (s s' : Server) : Prop where
  swept : Swept now tooLong s.nameList s.ca s'.nameList s'.ca
  never : ∀ n, s'.neverResTbl n =
    raised (s.nameList.countP fun nn => dropped now tooLong nn && nn.name == n) (s.neverResTbl n)
  own : Own s'.nameList s'.ca
  frame : SameButPending s s'

end Server

open Server

/-- A server that waits for the heartbeat of an IOC and for a search. -/
def waiting : Server where
  dir := Dir.empty
  nameList := [⟨['i'] ++ heartbeat, 0, 0, true⟩, ⟨['x'], 0, 1, false⟩]
  neverResTbl := fun _ => none
  nsResTbl := []
  pgateAs := none
  stats := NsStats.zero
  connectedIocs := 0
  requestedIocs := 1
  ca := (Ca.empty.search ['i'] .WDprocessChangeConnectionEvent).search ['x']
    .processChangeConnectionEvent

/-- A library whose calls succeed; the first `k` times it is asked, the channel is closed. -/
def closedFor (k n : ℕ) : CaAnswers := ⟨if n < k then 3 else 2, .normal, .normal, 1000 + n⟩

theorem waiting_own : Own waiting.nameList waiting.ca where
  opened := by
    intro nn hnn
    rcases List.mem_cons.mp hnn with rfl | hnn
    · exact ⟨_, rfl⟩
    · rw [List.mem_singleton.mp hnn]
      exact ⟨_, rfl⟩
  nodup := by decide
  fresh := by
    intro c ch hch
    rw [waiting, Ca.search_chans, Ca.search_chans] at hch
    split_ifs at hch with h1 h0
    · exact h1 ▸ Nat.lt_succ_self 1
    · exact h0 ▸ Nat.zero_lt_two
    · cases hch

theorem closedFor_clock (k : ℕ) : Clock 1000 (closedFor k) where
  start := le_rfl
  mono := fun _ _ hmn => Nat.add_le_add_left hmn 1000

/-- **When the purge comes back.**  For pending nodes with open channels of their own and a clock
that never runs backwards, the pass is over after finitely many turns exactly when every expired
heartbeat gets its search renewed. -/
theorem processPendingList_returns_iff {s : Server} {now tooLong : ℕ} {env : ℕ → CaAnswers}
    (hown : Own s.nameList s.ca) (hclock : Clock now env) :
    (∃ k s', s.processPendingList now tooLong (first env k) = .ok s') ↔
      Relieved now tooLong s.nameList env := by
  let pg₀ : Purge := ⟨[], s.nameList, s.ca, s.neverResTbl⟩
  constructor
  · rintro ⟨k, s', h⟩
    rw [processPendingList, bind_eq_ok_iff] at h
    obtain ⟨pg, hloop, -⟩ := h
    have hrel : Relieved now tooLong pg₀.rest env := relieved_of_purgeLoop hown hclock hloop
    exact hrel
  · intro h
    have hrest : pg₀.rest = s.nameList := rfl
    obtain ⟨k, pg, hloop⟩ := exists_purgeLoop_of_relieved hrest hown hclock h
    refine ⟨k, { s with
      nameList := pg.kept.reverse
      ca := pg.ca
      neverResTbl := pg.neverResTbl }, ?_⟩
    rw [processPendingList, hloop]
    rfl

/-- The channel of the heartbeat is closed at first. -/
theorem processPendingList_returns_waiting :
    ∃ k s', waiting.processPendingList 1000 300 (first (closedFor 1) k) = .ok s' := by
  refine (processPendingList_returns_iff waiting_own (closedFor_clock 1)).mpr ?_
  refine (relieved_of_heartbeat rfl rfl).mpr ⟨1, fun i hi => ?_, ⟨by decide, rfl, rfl⟩, ?_⟩
  · obtain rfl := Nat.lt_one_iff.mp hi
    exact Or.inl rfl
  · exact (relieved_of_search (Or.inr rfl)).mpr trivial

/-- The channel of the heartbeat stays closed: the pass makes the same turn for ever. -/
theorem processPendingList_hangs : ¬ ∀ (s : Server) (now tooLong : ℕ) (env : ℕ → CaAnswers),
    Own s.nameList s.ca → Clock now env →
    ∃ k s', s.processPendingList now tooLong (first env k) = .ok s' := by
  intro hall
  let env : ℕ → CaAnswers := fun n => ⟨3, .normal, .normal, 1000 + n⟩
  have hclock : Clock 1000 env := ⟨le_rfl, fun _ _ hmn => Nat.add_le_add_left hmn 1000⟩
  obtain ⟨k, s', h⟩ := hall waiting 1000 300 env waiting_own hclock
  rw [processPendingList, bind_eq_ok_iff] at h
  obtain ⟨pg, hloop, -⟩ := h
  let pg₀ : Purge := ⟨[], waiting.nameList, waiting.ca, waiting.neverResTbl⟩
  have hrel : Relieved 1000 300 pg₀.rest env := relieved_of_purgeLoop waiting_own hclock hloop
  obtain ⟨j, -, hrenews, -⟩ := (relieved_of_heartbeat rfl rfl).mp hrel
  exact hrenews.caState rfl

/-- **What the purge does** when the channels are not closed, the calls succeed and the clock never
runs backwards: the expired searches are gone, each with its channel and counted under its name,
the expired heartbeats have new channels, and the rest is as it was. -/
theorem processPendingList_purges {s : Server} {now tooLong : ℕ} {env : ℕ → CaAnswers}
    (hown : Own s.nameList s.ca) (hclock : Clock now env) (hgood : ∀ n, (env n).Renews) :
    ∃ s', Purged now tooLong s s' ∧ ∀ k, 2 * s.nameList.length ≤ k →
      s.processPendingList now tooLong (first env k) = .ok s' ∧
      ∀ nn ∈ s.nameList, (purgeClears now tooLong (first env k)
        ⟨[], s.nameList, s.ca, s.neverResTbl⟩).count nn.chd =
          if expired now tooLong nn then 1 else 0 := by
  let pg : Purge := ⟨[], s.nameList, s.ca, s.neverResTbl⟩
  have hrest : pg.rest = s.nameList := rfl
  obtain ⟨l', ca', hswept, hpasses⟩ := exists_swept hrest hown hclock hgood
  let s' : Server := { s with
    nameList := l'
    ca := ca'
    neverResTbl := neverAfter now tooLong s.nameList s.neverResTbl }
  have hrun : ∀ k, 2 * s.nameList.length ≤ k →
      s.processPendingList now tooLong (first env k) = .ok s' := by
    intro k hk
    rw [processPendingList, (hpasses k hk).1]
    simp [s', pg]
  refine ⟨s', ⟨hswept, neverAfter_apply s.nameList s.neverResTbl, ?_,
    processPendingList_frame (hrun _ le_rfl)⟩, fun k hk => ⟨hrun k hk, fun nn hnn => ?_⟩⟩
  · refine processPendingList_induct (P := Own) (hrun _ le_rfl) hown ?_
    intro a ha ca l l' ca' h hs
    obtain ⟨n, -, rfl⟩ := List.mem_map.mp ha
    exact h.purgeStep hs (hgood n).search
  · rw [(hpasses k hk).2]
    have hnodup : ((s.nameList.filter (expired now tooLong)).map Namenode.chd).Nodup :=
      hown.nodup.sublist (List.filter_sublist.map _)
    split_ifs with hexp
    · exact List.count_eq_one_of_mem hnodup
        (List.mem_map_of_mem (List.mem_filter.mpr ⟨hnn, hexp⟩))
    · refine List.count_eq_zero.mpr fun hmem => ?_
      obtain ⟨x, hx, hchd⟩ := List.mem_map.mp hmem
      obtain ⟨hxmem, hxexp⟩ := List.mem_filter.mp hx
      rw [List.inj_on_of_nodup_map hown.nodup hxmem hnn hchd] at hxexp
      exact hexp hxexp

/-- The search has expired and is counted. -/
theorem processPendingList_purges_waiting : ∃ s', Purged 1000 300 waiting s' ∧
    waiting.processPendingList 1000 300 (first (closedFor 0) 4) = .ok s' ∧
    s'.neverResTbl ['x'] = some 1 := by
  have hgood : ∀ n, (closedFor 0 n).Renews := fun n => ⟨by simp [closedFor], rfl, rfl⟩
  obtain ⟨s', hpurged, hrun⟩ :=
    @processPendingList_purges waiting 1000 300 (closedFor 0) waiting_own (closedFor_clock 0) hgood
  exact ⟨s', hpurged, (hrun 4 le_rfl).1, hpurged.never ['x']⟩

end CaNameserver

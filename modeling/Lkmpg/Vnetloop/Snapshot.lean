import Lkmpg.Lib.SeqCount
import Lkmpg.Vnetloop.Stats

/-!
# Reading the counters of `vnetloop.c` while frames are sent

Where a machine has words of 32 bits, `vnetloop_xmit` stores each counter in two halves and
`vnetloop_get_stats64` loads it in two.  `syncp` is then a sequence count: the updates of
`vnetloop_xmit`, of which the transmit lock admits one at a time, stand between
`u64_stats_update_begin` and `u64_stats_update_end`, and the loop of `vnetloop_get_stats64` loads
everything again if there has been one.  So whatever it returns are the counters of `Stats.lean`
after a number of complete calls.
-/

namespace Lkmpg.Vnetloop

open Transition SeqCount

/-! ### Counters in halves -/

/-- The fields of `struct vnetloop_priv` that count. -/
inductive Counter
  | txPackets
  | txBytes
  | rxPackets
  | rxBytes
  deriving DecidableEq

inductive Half
  | low
  | high
  deriving DecidableEq

def Priv.get (priv : Priv) : Counter → BitVec 64
  | .txPackets => priv.txPackets
  | .txBytes => priv.txBytes
  | .rxPackets => priv.rxPackets
  | .rxBytes => priv.rxBytes

def Priv.set (priv : Priv) (x : BitVec 64) : Counter → Priv
  | .txPackets => { priv with txPackets := x }
  | .txBytes => { priv with txBytes := x }
  | .rxPackets => { priv with rxPackets := x }
  | .rxBytes => { priv with rxBytes := x }

def halfOf (x : BitVec 64) : Half → BitVec 32
  | .low => x.extractLsb' 0 32
  | .high => x.extractLsb' 32 32

/-- The counter after a store into one of its halves. -/
def setHalf (x : BitVec 64) (y : BitVec 32) : Half → BitVec 64
  | .low => halfOf x .high ++ y
  | .high => y ++ halfOf x .low

def Priv.storeHalf (c : Counter) (h : Half) (y : BitVec 32) (priv : Priv) : Priv :=
  priv.set (setHalf (priv.get c) y h) c

/-- The two stores of `priv->c += n`. -/
def addTo (c : Counter) (n : BitVec 64) (priv : Priv) : List (Priv → Priv) :=
  let sum := priv.get c + n
  [Priv.storeHalf c .low (halfOf sum .low), Priv.storeHalf c .high (halfOf sum .high)]

/-- What `vnetloop_xmit` stores between `u64_stats_update_begin` and `u64_stats_update_end`. -/
def xmitStores (c : Call) (priv : Priv) : List (Priv → Priv) :=
  let len := c.skb.len.setWidth 64
  if c.copied then
    let rxSkb := ethTypeTrans c.skb
    addTo .txPackets 1 priv ++ addTo .txBytes len priv ++ addTo .rxPackets 1 priv ++
      addTo .rxBytes (rxSkb.len.setWidth 64) priv
  else
    addTo .txPackets 1 priv ++ addTo .txBytes len priv

/-- The loads of `vnetloop_get_stats64`. -/
def counters : Protected Priv Call (Counter × Half) (BitVec 32) where
  init := Priv.init
  stores := xmitStores
  load priv w := halfOf (priv.get w.1) w.2
  order := [(.txPackets, .low), (.txPackets, .high), (.txBytes, .low), (.txBytes, .high),
    (.rxPackets, .low), (.rxPackets, .high), (.rxBytes, .low), (.rxBytes, .high)]

/-- `struct rtnl_link_stats64` from the words that have been loaded into it. -/
def statsOf : List (BitVec 32) → Option Stats
  | [txPackets₀, txPackets₁, txBytes₀, txBytes₁, rxPackets₀, rxPackets₁, rxBytes₀, rxBytes₁] =>
      some ⟨txPackets₁ ++ txPackets₀, txBytes₁ ++ txBytes₀, rxPackets₁ ++ rxPackets₀,
        rxBytes₁ ++ rxBytes₀⟩
  | _ => none

/-- Readers are named by `ρ`. -/
abbrev NetState (ρ : Type*) := SeqCount.State Priv Call (Counter × Half) (BitVec 32) ρ

/-! ### An update is a call of `vnetloop_xmit` -/

theorem halves_append (x : BitVec 64) : halfOf x .high ++ halfOf x .low = x := by
  ext i hi
  simp only [halfOf, BitVec.getElem_append, BitVec.getElem_extractLsb']
  split
  · simp [BitVec.getLsbD_eq_getElem hi]
  · rw [Nat.add_sub_cancel' (by omega), BitVec.getLsbD_eq_getElem hi]

theorem halfOf_append_low (y z : BitVec 32) : halfOf (y ++ z) .low = z := by
  ext i hi
  simp only [halfOf, BitVec.getElem_extractLsb', Nat.zero_add, BitVec.getLsbD_append, hi, if_true,
    BitVec.getLsbD_eq_getElem]

@[simp] theorem get_set (priv : Priv) (x : BitVec 64) (c : Counter) : (priv.set x c).get c = x := by
  cases c <;> rfl

@[simp] theorem set_set (priv : Priv) (x y : BitVec 64) (c : Counter) :
    (priv.set x c).set y c = priv.set y c := by
  cases c <;> rfl

/-- Both halves stored are the sum stored. -/
theorem storeAll_addTo (c : Counter) (n : BitVec 64) (priv prev : Priv) :
    storeAll (addTo c n priv) prev = prev.set (priv.get c + n) c := by
  simp only [storeAll, addTo, List.foldl_cons, List.foldl_nil, Priv.storeHalf, get_set, set_set,
    setHalf, halfOf_append_low, halves_append]

/-- The stores of an update are the update of `vnetloop_xmit`. -/
theorem counters_update (priv : Priv) (c : Call) :
    counters.update priv c = vnetloopXmit priv c.skb c.copied := by
  show storeAll (xmitStores c priv) priv = _
  unfold xmitStores vnetloopXmit
  cases c.copied with
  | true =>
      rw [if_pos rfl, if_pos rfl, storeAll_append, storeAll_append, storeAll_append,
        storeAll_addTo, storeAll_addTo, storeAll_addTo, storeAll_addTo]
      rfl
  | false =>
      rw [if_neg Bool.false_ne_true, if_neg Bool.false_ne_true, storeAll_append, storeAll_addTo,
        storeAll_addTo]
      rfl

theorem counters_content (calls : List Call) : counters.content calls = transmit calls := by
  have hupdate : counters.update = fun priv c => vnetloopXmit priv c.skb c.copied := by
    funext priv c
    exact counters_update priv c
  rw [Protected.content, hupdate]
  rfl

theorem statsOf_words (priv : Priv) :
    statsOf (counters.words priv) = some (vnetloopGetStats64 priv) := by
  have hwords : counters.words priv = [halfOf priv.txPackets .low, halfOf priv.txPackets .high,
      halfOf priv.txBytes .low, halfOf priv.txBytes .high, halfOf priv.rxPackets .low,
      halfOf priv.rxPackets .high, halfOf priv.rxBytes .low, halfOf priv.rxBytes .high] := rfl
  rw [hwords, statsOf, halves_append, halves_append, halves_append, halves_append]
  rfl

/-- **Snapshot.**  Frames are sent and counters are read in any order of the single stores and loads.
A reader that leaves its loop has the counters of the calls so far, none of which is then between its
stores, unless `2 ^ 31` frames have been sent during the last round of this loop. -/
theorem stats_snapshot {ρ : Type*} [DecidableEq ρ] (ls : List (Label Call ρ)) :
    Along (step counters) (fun s l => NotOvertaken s l → ∀ r words, l = .fetchRetry r →
      returns s r = some words →
        s.pending = none ∧ statsOf words = some (vnetloopGetStats64 (transmit s.begun)))
      (counters.start : NetState ρ) ls := by
  refine (returns_content counters ls).mono fun s l h hnot r words hl hreturns => ?_
  obtain ⟨hpending, hwords⟩ := h hnot r words hl hreturns
  refine ⟨hpending, ?_⟩
  rw [hwords, counters_content, statsOf_words]

/-- A frame of 60 bytes is being counted when the reader has loaded half of a counter. -/
def disturbed : List (Label Call (Fin 1)) :=
  [.call 0, .fetchBegin 0, .load 0, .beginUpdate ⟨⟨60⟩, true, by decide⟩] ++
    List.replicate 8 .store ++ List.replicate 7 (.load 0) ++ [.endUpdate, .fetchRetry 0,
    .fetchBegin 0] ++ List.replicate 8 (.load 0)

theorem stats_snapshot_disturbed :
    ∃ (s : NetState (Fin 1)) (words : List (BitVec 32)),
      run (step counters) counters.start disturbed = some s ∧ returns s 0 = some words ∧
        s.pending = none ∧ statsOf words = some (vnetloopGetStats64 (transmit s.begun)) := by
  obtain ⟨s, hrun⟩ : ∃ s : NetState (Fin 1), run (step counters) counters.start disturbed = some s :=
    ⟨_, rfl⟩
  obtain ⟨words, hwords⟩ : ∃ words, returns s 0 = some words := by
    obtain rfl := Option.some.inj hrun
    exact ⟨_, rfl⟩
  have hnot : NotOvertaken s (.fetchRetry 0 : Label Call (Fin 1)) := by
    obtain rfl := Option.some.inj hrun
    decide
  have hlast := (stats_snapshot (disturbed ++ [.fetchRetry 0])).last hrun
  exact ⟨s, words, hrun, hwords, hlast hnot 0 words rfl hwords⟩

end Lkmpg.Vnetloop

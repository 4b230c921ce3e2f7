import Hipfire.Base.Lists
import Hipfire.Redline.Batch
/-!
# Stages — a two-queue batch is a sequence of stages

Counting phases through the tokens, stage `k` is phase `k % p` of token `k / p`.  Each queue's stream is the concatenation of
its stages (`batch_eq_stages`): a fan-in on both tails of the stage before, the stage's dispatches, and the consolidation
that signals its tail.  In every run of the two queues, a stage's dispatches finish before a later stage's start
(`stage_order`) and before the terminal packet does (`stage_before_terminal`).
-/
namespace Hipfire.Redline

open List

/-! ## The queues -/

def Packet.isBarrierAnd : Packet → Bool
  | .barrierAnd _ _ _ => true
  | .kernel _ _ _ => false

/-- The packet waits for the signal that the other packet fires. -/
def Packet.waitsFor : Packet → Packet → Bool
  | .barrierAnd dependencies _ _, other => decide (other.completion ≠ .none) && decide (other.completion ∈ dependencies)
  | .kernel _ _ _, _ => false

def atPlace (stream : List Emitted) (i : Nat) (test : Packet → Bool) : Bool :=
  match stream[i]? with
  | none => false
  | some e => test e.packet

/-- A run of the two queues: when the packet at each place starts and finishes. -/
structure AqlRun {T : Type} [Preorder T] (batches : Fin 2 → List Emitted) (start finish : Fin 2 → Nat → T) : Prop where
  runs : ∀ q, ∀ i < (batches q).length, start q i ≤ finish q i
  inOrder : ∀ q, ∀ j < (batches q).length, ∀ i < j, start q i ≤ start q j
  barrier : ∀ q, ∀ j < (batches q).length, atPlace (batches q) j (fun p => p.policy.barrier) = true →
    ∀ i < j, finish q i ≤ start q j
  signals : ∀ q, ∀ j < (batches q).length, ∀ q', ∀ i < (batches q').length,
    atPlace (batches q) j (fun p => atPlace (batches q') i (fun p' => p.waitsFor p')) = true → finish q' i ≤ finish q j
  blocks : ∀ q, ∀ k < (batches q).length, ∀ j < k, atPlace (batches q) j Packet.isBarrierAnd = true →
    finish q j ≤ start q k

/-! ## Stages -/

section stages

variable (phases : List TwoQueuePhase) (policies : TwoQueueDerivedPolicies) (tokenCount : Nat)

/-- The fan-in that stage `k` begins with. -/
def stageFanIn (k : Nat) : List Emitted :=
  if k = 0 then [] else [fanIn policies ((k - 1) / phases.length) ((k - 1) % phases.length)]

def stage (lane : Fin 2) (k : Nat) : List Emitted :=
  stageFanIn phases policies k ++ phaseBody phases policies tokenCount (k / phases.length) lane (k % phases.length)

theorem tokenPackets_eq_stages (hp : 0 < phases.length) (lane : Fin 2) (token : Nat) :
    tokenPackets phases policies tokenCount lane token =
      (range phases.length).flatMap (fun p => stage phases policies tokenCount lane (token * phases.length + p)) := by
  obtain ⟨p, hpl⟩ : ∃ p, phases.length = p + 1 := ⟨phases.length - 1, by omega⟩
  have hdiv : ∀ k < phases.length, (token * phases.length + k) / phases.length = token ∧
      (token * phases.length + k) % phases.length = k := fun k hk => by
    rw [Nat.mul_comm]
    exact ⟨by rw [Nat.mul_add_div hp, Nat.div_eq_of_lt hk, Nat.add_zero],
      by rw [Nat.mul_add_mod, Nat.mod_eq_of_lt hk]⟩
  -- the phases after the first bring their own fan-in
  have hlater : ∀ k, k + 1 < phases.length → phasePackets phases policies tokenCount token lane (k + 1) =
      stage phases policies tokenCount lane (token * phases.length + (k + 1)) := fun k hk => by
    obtain ⟨h1, h2⟩ := hdiv (k + 1) hk
    obtain ⟨h3, h4⟩ := hdiv k (by omega)
    unfold phasePackets stage stageFanIn
    rw [h1, h2, if_neg (by omega), if_neg (by omega), Nat.add_sub_cancel]
    have : token * phases.length + (k + 1) - 1 = token * phases.length + k := by omega
    rw [this, h3, h4]
  -- the first phase has the fan-in of the token
  have hfirst : (if token = 0 then [] else [fanIn policies (token - 1) (phases.length - 1)]) ++
      phasePackets phases policies tokenCount token lane 0 =
        stage phases policies tokenCount lane (token * phases.length + 0) := by
    obtain ⟨h1, h2⟩ := hdiv 0 hp
    unfold phasePackets stage stageFanIn
    rw [h1, h2, if_pos rfl, nil_append]
    by_cases ht : token = 0
    · subst ht; simp
    have hpos : token * phases.length + 0 ≠ 0 := by
      have := Nat.mul_pos (Nat.pos_of_ne_zero ht) hp
      omega
    obtain ⟨t, rfl⟩ : ∃ t, token = t + 1 := ⟨token - 1, by omega⟩
    have hprev : (t + 1) * phases.length + 0 - 1 = phases.length * t + (phases.length - 1) := by
      rw [Nat.add_mul, Nat.one_mul, Nat.mul_comm t]; omega
    rw [if_neg ht, if_neg hpos, hprev, Nat.mul_add_div hp, Nat.mul_add_mod, Nat.div_eq_of_lt (by omega),
      Nat.mod_eq_of_lt (by omega), Nat.add_sub_cancel]
    rfl
  unfold tokenPackets
  rw [hpl, range_succ_eq_map, flatMap_cons, flatMap_cons, flatMap_map, flatMap_map, ← hpl,
    ← append_assoc, hfirst]
  refine congrArg _ (flatMap_congr (fun k hk => ?_))
  have := mem_range.1 hk
  exact hlater k (by omega)

/-- **A queue's stream is the sequence of its stages**, and on queue zero the terminal packet. -/
theorem batch_eq_stages (hp : 0 < phases.length) (lane : Fin 2) : batch phases policies tokenCount lane =
    (range (tokenCount * phases.length)).flatMap (stage phases policies tokenCount lane) ++
      if lane = lane0 then [terminalPacket phases policies tokenCount] else [] := by
  rw [← flatMap_range_mul]
  exact congrArg (· ++ _) (flatMap_congr (fun t _ => tokenPackets_eq_stages phases policies tokenCount hp lane t))

/-- Where stage `k` starts on a queue. -/
def stageStart (lane : Fin 2) (k : Nat) : Nat :=
  blockStart (stage phases policies tokenCount lane) k

theorem length_stage_pos (lane : Fin 2) (k : Nat) : 0 < (stage phases policies tokenCount lane k).length := by
  simp only [stage, phaseBody, length_append, length_singleton]
  omega

theorem stageStart_succ (lane : Fin 2) (k : Nat) : stageStart phases policies tokenCount lane (k + 1) =
    stageStart phases policies tokenCount lane k + (stage phases policies tokenCount lane k).length :=
  blockStart_succ _ k

variable {e : Emitted} {k i : Nat}

theorem batch_at_stage (hp : 0 < phases.length) (lane : Fin 2) {m : Nat} (hk : k < tokenCount * phases.length)
    (hm : m < (stage phases policies tokenCount lane k).length) :
    (batch phases policies tokenCount lane)[stageStart phases policies tokenCount lane k + m]? =
      (stage phases policies tokenCount lane k)[m]? := by
  have hlt : blockStart (stage phases policies tokenCount lane) k + m <
      ((range (tokenCount * phases.length)).flatMap (stage phases policies tokenCount lane)).length := by
    have := blockStart_mono (stage phases policies tokenCount lane) (Nat.succ_le_of_lt hk)
    rw [Nat.succ_eq_add_one, blockStart_succ] at this
    unfold blockStart at this ⊢
    omega
  rw [batch_eq_stages phases policies tokenCount hp]
  unfold stageStart
  rw [getElem?_append_left hlt, getElem?_flatMap_range _ hk hm]

theorem consolidate_at (hp : 0 < phases.length) (lane : Fin 2) (hk : k < tokenCount * phases.length) :
    (batch phases policies tokenCount lane)[stageStart phases policies tokenCount lane (k + 1) - 1]? =
      some (consolidate policies (k / phases.length) (k % phases.length) lane) := by
  have hpos := length_stage_pos phases policies tokenCount lane k
  have he : stageStart phases policies tokenCount lane (k + 1) - 1 = stageStart phases policies tokenCount lane k +
      ((stage phases policies tokenCount lane k).length - 1) := by
    rw [stageStart_succ]; omega
  rw [he, batch_at_stage phases policies tokenCount hp lane hk (by omega)]
  unfold stage phaseBody
  rw [← append_assoc, length_append, length_singleton, Nat.add_sub_cancel, getElem?_append_right
    le_rfl, Nat.sub_self]
  rfl

theorem fanIn_at (hp : 0 < phases.length) (lane : Fin 2) (hk : k + 1 < tokenCount * phases.length) :
    (batch phases policies tokenCount lane)[stageStart phases policies tokenCount lane (k + 1)]? =
      some (fanIn policies (k / phases.length) (k % phases.length)) := by
  have := batch_at_stage phases policies tokenCount hp lane hk (length_stage_pos phases policies tokenCount lane (k + 1))
  rw [Nat.add_zero] at this
  rw [this]
  rfl

/-- A job's packet lies inside its stage, after the fan-in and before the consolidation. -/
theorem job_at (hp : 0 < phases.length) (lane : Fin 2) {job : Job}
    (he : (batch phases policies tokenCount lane)[i]? = some e) (hj : e.job = some job) :
    ∃ k < tokenCount * phases.length, job.token = k / phases.length ∧ job.phase = k % phases.length ∧ job.lane = lane ∧
      i = stageStart phases policies tokenCount lane k + (stageFanIn phases policies k).length + job.slot ∧
      i + 1 < stageStart phases policies tokenCount lane (k + 1) ∧
      ∃ recorded completion policy, ((phaseAt phases job.phase).lane lane)[job.slot]? = some recorded ∧
        e.packet = .kernel recorded.image completion policy := by
  rcases Nat.lt_or_ge i ((range (tokenCount * phases.length)).flatMap (stage phases policies tokenCount lane)).length with
    hlt | hge
  · obtain ⟨k, hk, m, hm, rfl⟩ := exists_block _ _ i hlt
    refine ⟨k, hk, ?_⟩
    have hread := batch_at_stage phases policies tokenCount hp lane hk hm
    unfold stageStart at hread ⊢
    rw [he] at hread
    unfold stage at hread hm
    rcases Nat.lt_or_ge m (stageFanIn phases policies k).length with hf | hf
    · -- the fan-in does no job
      rw [getElem?_append_left hf] at hread
      have hmem := mem_of_getElem? hread.symm
      unfold stageFanIn at hmem
      split at hmem
      · cases hmem
      · rw [mem_singleton.1 hmem] at hj; cases hj
    · rw [getElem?_append_right hf] at hread
      unfold phaseBody at hread
      generalize hd : (phaseAt phases (k % phases.length)).lane lane = ds at hread hm
      rcases Nat.lt_or_ge (m - (stageFanIn phases policies k).length) ds.length with hs | hs
      · rw [getElem?_append_left (by simpa [laneDispatches] using hs)] at hread
        simp only [laneDispatches, getElem?_map, getElem?_zipIdx] at hread
        rw [getElem?_eq_getElem hs] at hread
        simp only [Option.map_some, Option.some.injEq] at hread
        rw [hread] at hj
        simp only [Option.some.injEq] at hj
        subst hj
        refine ⟨rfl, rfl, rfl, by simp only; omega, ?_, ds[m - (stageFanIn phases policies k).length], _, _,
          by simp only [hd, Nat.zero_add]; exact getElem?_eq_getElem hs, by rw [hread]⟩
        rw [blockStart_succ]
        have hstage : (stage phases policies tokenCount lane k).length =
            (stageFanIn phases policies k).length + (ds.length + 1) := by
          simp only [stage, phaseBody, laneDispatches, hd, length_append, length_map, length_zipIdx,
            length_singleton]
        omega
      · -- the consolidation does no job
        rw [getElem?_append_right (by simpa [laneDispatches] using hs)] at hread
        have hmem := mem_of_getElem? hread.symm
        rw [mem_singleton.1 hmem] at hj; cases hj
  · -- the terminal packet does no job
    rw [batch_eq_stages phases policies tokenCount hp, getElem?_append_right hge] at he
    have hmem := mem_of_getElem? he
    split at hmem
    · rw [mem_singleton.1 hmem] at hj; cases hj
    · cases hmem

theorem job_place (hp : 0 < phases.length) (lane : Fin 2) (k slot : Nat) (recorded : RecordedDispatch)
    (hk : k < tokenCount * phases.length) (hs : ((phaseAt phases (k % phases.length)).lane lane)[slot]? = some recorded) :
    ∃ e, (batch phases policies tokenCount lane)[stageStart phases policies tokenCount lane k +
        (stageFanIn phases policies k).length + slot]? = some e ∧
      e.job = some ⟨k / phases.length, k % phases.length, lane, slot⟩ := by
  have hlt := lt_of_getElem? hs
  have hread : (stage phases policies tokenCount lane k)[(stageFanIn phases policies k).length + slot]? =
      (laneDispatches phases policies tokenCount (k / phases.length) (k % phases.length) lane
        ((phaseAt phases (k % phases.length)).lane lane))[slot]? := by
    unfold stage phaseBody
    rw [getElem?_append_right (Nat.le_add_right _ _), Nat.add_sub_cancel_left,
      getElem?_append_left (by simpa [laneDispatches] using hlt)]
  simp only [laneDispatches, getElem?_map, getElem?_zipIdx, hs, Option.map_some] at hread
  rw [Nat.add_assoc, batch_at_stage phases policies tokenCount hp lane hk (lt_of_getElem? hread), hread]
  exact ⟨_, rfl, by simp⟩

/-- Only the terminal packet fires the final signal, after all the stages of queue zero. -/
theorem final_at (hp : 0 < phases.length) (lane : Fin 2)
    (he : (batch phases policies tokenCount lane)[i]? = some e) (hf : e.packet.completion = .final) :
    lane = 0 ∧ e = terminalPacket phases policies tokenCount := by
  rw [batch_eq_stages phases policies tokenCount hp] at he
  rcases mem_append.1 (mem_of_getElem? he) with hm | hm
  · obtain ⟨k, -, hm⟩ := mem_flatMap.1 hm
    unfold stage stageFanIn phaseBody at hm
    rcases mem_append.1 hm with hm | hm
    · split at hm
      · cases hm
      · rw [mem_singleton.1 hm] at hf; cases hf
    · rcases mem_append.1 hm with hm | hm
      · obtain ⟨x, -, rfl⟩ := mem_map.1 hm
        simp only [Packet.completion, dispatchSignal] at hf
        split at hf
        · cases hf
        split at hf
        · cases hf
        split at hf
        · cases hf
        · cases hf
      · rw [mem_singleton.1 hm] at hf; cases hf
  · split at hm
    · rename_i hl
      exact ⟨hl, mem_singleton.1 hm⟩
    · cases hm

/-! ## Runs -/

variable {T : Type} [Preorder T] {start finish : Fin 2 → Nat → T}

theorem atPlace_of {stream : List Emitted} (h : stream[i]? = some e) (test : Packet → Bool) :
    atPlace stream i test = test e.packet := by
  unfold atPlace
  rw [h]

theorem lane_cases : ∀ lane : Fin 2, lane = 0 ∨ lane = 1
  | 0 => .inl rfl
  | 1 => .inr rfl

section run

variable {phases policies tokenCount}
variable (hp : 0 < phases.length) (hb : policies.consolidation.barrier = true)
  (hrun : AqlRun (batch phases policies tokenCount) start finish)
include hp hb hrun

/-- Everything up to a stage finishes before the stage's consolidation does. -/
theorem before_consolidate (lane : Fin 2) (hk : k < tokenCount * phases.length)
    (hi : i + 1 < stageStart phases policies tokenCount lane (k + 1)) :
    finish lane i ≤ finish lane (stageStart phases policies tokenCount lane (k + 1) - 1) := by
  have hat := consolidate_at phases policies tokenCount hp lane hk
  have hlt := lt_of_getElem? hat
  refine le_trans (hrun.barrier lane _ hlt ?_ i (by omega)) (hrun.runs lane _ hlt)
  rw [atPlace_of hat]
  exact hb

/-- **Stages are ordered across the queues**: what precedes the end of a stage on one queue finishes before anything of a
later stage starts on the other. -/
theorem stage_order (lane lane' : Fin 2) {j : Nat} (hk : k + 1 < tokenCount * phases.length)
    (hi : i + 1 < stageStart phases policies tokenCount lane (k + 1))
    (hj : stageStart phases policies tokenCount lane' (k + 1) < j)
    (hlen : j < (batch phases policies tokenCount lane').length) : finish lane i ≤ start lane' j := by
  have hcons := consolidate_at phases policies tokenCount hp lane (Nat.lt_of_succ_lt hk)
  have hfan := fanIn_at phases policies tokenCount hp lane' hk
  have hclt := lt_of_getElem? hcons
  have hflt := lt_of_getElem? hfan
  calc finish lane i
      ≤ finish lane (stageStart phases policies tokenCount lane (k + 1) - 1) :=
        before_consolidate hp hb hrun lane (Nat.lt_of_succ_lt hk) hi
    _ ≤ finish lane' (stageStart phases policies tokenCount lane' (k + 1)) := by
        refine hrun.signals lane' _ hflt lane _ hclt ?_
        rw [atPlace_of hfan, atPlace_of hcons]
        simpa [fanIn, consolidate, Packet.waitsFor, Packet.completion] using lane_cases lane
    _ ≤ start lane' j := by
        refine hrun.blocks lane' j hlen _ hj ?_
        rw [atPlace_of hfan]
        rfl

/-- **Every stage finishes before the terminal packet does.** -/
theorem stage_before_terminal (lane : Fin 2) {j : Nat} (hn : 0 < tokenCount)
    (hi : i + 1 < stageStart phases policies tokenCount lane (tokenCount * phases.length))
    (he : (batch phases policies tokenCount 0)[j]? = some e) (hterm : e = terminalPacket phases policies tokenCount) :
    finish lane i ≤ finish 0 j := by
  have hN : 0 < tokenCount * phases.length := Nat.mul_pos hn hp
  obtain ⟨k, hk⟩ : ∃ k, tokenCount * phases.length = k + 1 := ⟨tokenCount * phases.length - 1, by omega⟩
  rw [hk] at hi
  have hcons := consolidate_at phases policies tokenCount hp lane (by omega : k < tokenCount * phases.length)
  have hclt := lt_of_getElem? hcons
  have hlast : k / phases.length = tokenCount - 1 ∧ k % phases.length = phases.length - 1 := by
    obtain ⟨n, rfl⟩ : ∃ n, tokenCount = n + 1 := ⟨tokenCount - 1, by omega⟩
    have : k = phases.length * n + (phases.length - 1) := by
      rw [Nat.add_mul, Nat.one_mul, Nat.mul_comm] at hk; omega
    rw [this, Nat.mul_add_div hp, Nat.mul_add_mod, Nat.div_eq_of_lt (by omega), Nat.mod_eq_of_lt (by omega)]
    exact ⟨by omega, rfl⟩
  refine le_trans (before_consolidate hp hb hrun lane (by omega) hi) ?_
  refine hrun.signals 0 j (lt_of_getElem? he) lane _ hclt ?_
  rw [atPlace_of he, atPlace_of hcons, hterm, hlast.1, hlast.2]
  simpa [terminalPacket, consolidate, Packet.waitsFor, Packet.completion] using lane_cases lane

end run

end stages

end Hipfire.Redline

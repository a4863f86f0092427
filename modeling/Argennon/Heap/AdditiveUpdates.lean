import Argennon.Heap.RestrictedModifier
import Mathlib.Algebra.BigOperators.Group.List.Basic
import Mathlib.Data.Int.ModEq
import Mathlib.Algebra.Order.Ring.Int

/- Requests that add to one `int_additive` block. Each of them collects its amounts in its own
   versions of the block, and `wrToHeap` adds what it has collected to the heap, under the lock of
   the chunk. The scheduler leaves such requests without an order (`canMerge`): sums modulo the
   width of the block do not depend on it. -/
namespace Argennon
open AccessBlock VersionStack

/-- What a request does: amounts are of the block's integer type. -/
inductive AdditiveOp where
  | addInt (value : Int)
  | saveVersion
  deriving DecidableEq

/-- The two's complement of a number, in so many bytes. -/
def twosComplement (size : Nat) (value : Int) : Nat := (value % 256 ^ size).toNat

/-- A request with its block. -/
structure AdditiveRequest where
  currentVersion : Nat := 0
  block : AccessBlock

namespace AdditiveRequest

/-- `addInt` and `saveVersion` of the modifier of the request. -/
def exec (r : AdditiveRequest) : AdditiveOp → Except Exn Unit × AdditiveRequest
  | .addInt value =>
    let (result, block) :=
      r.block.addInt r.currentVersion r.block.size (twosComplement r.block.size value)
    (result, { r with block })
  | .saveVersion =>
    if r.currentVersion =
      maxVersion then (.error (.asceeError "version limit reached" .limit_exceeded), r)
    else (.ok (), { r with currentVersion := r.currentVersion + 1 })

/-- The operations of a request, which may go on after an exception. -/
def run : AdditiveRequest → List AdditiveOp → Except Exn AdditiveRequest
  | r, [] => .ok r
  | r, op :: ops =>
    match r.exec op with
    | (.error e, r) => if e.IsThrown then run r ops else .error e
    | (.ok _, r) => run r ops

/-- The amount in the version of the block that is written. -/
def collected (r : AdditiveRequest) : Nat :=
  ((view r.currentVersion r.block.versionList).map leNat).getD 0

/-- What `writeToHeap` does for the block: nothing at version 0. -/
def writeToHeap (r : AdditiveRequest) (chunk : Chunk) : Except Exn Chunk :=
  if r.currentVersion = 0 then .ok chunk
  else r.block.wrToHeap chunk r.currentVersion (chunk.getsize - r.block.heapLocation)

/-- The requests are written in this order. -/
def writeAll : List AdditiveRequest → Chunk → Except Exn Chunk
  | [], chunk => .ok chunk
  | r :: rs, chunk => do
    let chunk ← r.writeToHeap chunk
    writeAll rs chunk

end AdditiveRequest

/-- The sum of the amounts. -/
def amount : List AdditiveOp → Int
  | [] => 0
  | .addInt value :: ops => value + amount ops
  | .saveVersion :: ops => amount ops

/-- The number that is stored in the bytes of a chunk. -/
def Chunk.number (chunk : Chunk) (offset size : Nat) : Nat :=
  leNat (readAt chunk.content offset size)

/-! ## One request -/

/-- The request has collected this amount in its block. -/
structure Collected (b : AccessBlock) (r : AdditiveRequest) (total : Int) : Prop where
  same : SameBlock b r.block
  sum : Int.ModEq (256 ^ b.size) r.collected total
  number_pos : ∀ e ∈ r.block.versionList, 1 ≤ e.number
  number_le : ∀ e ∈ r.block.versionList, e.number ≤ r.currentVersion

theorem twosComplement_modEq (size : Nat) (value : Int) : Int.ModEq (256 ^ size)
    (twosComplement size value : Nat) value := by
  have hpos : (0 : Int) < 256 ^ size := Int.pow_pos (by decide)
  unfold twosComplement
  rw [Int.toNat_of_nonneg (Int.emod_nonneg _ (Int.ne_of_gt hpos))]
  exact Int.mod_modEq _ _

theorem leNat_leBytes_modEq (size n : Nat) : Int.ModEq (256 ^ size)
    (leNat (leBytes size n) : Nat) n := by
  rw [leNat_leBytes]
  push_cast
  exact Int.mod_modEq _ _

/-- A write puts one entry of its version on top. -/
theorem mem_put {v : Nat} {content : List Byte} {s : Stack (List Byte)} {e : Version}
    (h : e ∈ put v content s) :
    e.number = v ∨ e ∈ s := by
  cases s with
  | nil =>
    obtain rfl := List.mem_singleton.mp h
    exact .inl rfl
  | cons f s =>
    rw [put_cons] at h
    split at h
    · obtain rfl | he := List.mem_cons.mp h
      · exact .inl rfl
      · exact .inr (List.mem_cons_of_mem _ he)
    · obtain rfl | he := List.mem_cons.mp h
      · exact .inl rfl
      · exact .inr he

section
variable {b : AccessBlock} {r r' : AdditiveRequest} {total : Int}

theorem run_cons_ok {op : AdditiveOp} (h : r.exec op = (.ok (), r')) (ops : List AdditiveOp) :
    r.run (op :: ops) = r'.run ops := by
  rw [AdditiveRequest.run, h]

theorem run_cons_error {op : AdditiveOp} {e : Exn} (h : r.exec op = (.error e, r'))
    (ops : List AdditiveOp) :
    r.run (op :: ops) = if e.IsThrown then r'.run ops else .error e := by
  rw [AdditiveRequest.run, h]

theorem Collected.allowed (h : Collected b r total) (hadditive : b.accessType.isAdditive = true) :
    r.block.accessType.denies .int_add = false := by
  rw [h.same.accessType]
  cases haccess : b.accessType <;> simp_all [Access.isAdditive, Access.denies]

/-- At version 0 the assertion of `ensureExists` fails. -/
theorem exec_addInt_zero (hallowed : r.block.accessType.denies .int_add = false)
    (hversion : r.currentVersion = 0) (value : Int) :
    r.exec (.addInt value) =
      (.error (.assertion "version >= 1"), { r with block := r.block.syncTo 0 }) := by
  have hcall : r.block.addInt 0 r.block.size (twosComplement r.block.size value) = _ :=
    addInt_zero rfl hallowed
  unfold AdditiveRequest.exec
  dsimp only
  rw [hversion, hcall]

/-- An amount that is added. -/
theorem Collected.addInt (h : Collected b r total) (hadditive : b.accessType.isAdditive = true)
    (hversion : 1 ≤ r.currentVersion)
    (value : Int) : ∃ r', r.exec (.addInt value) = (.ok (), r') ∧
    Collected b r' (total + value) := by
  obtain ⟨block, hcall, hsame, hversions⟩ :
    ∃ block, r.block.addInt r.currentVersion r.block.size (twosComplement r.block.size value) =
      (.ok (), block) ∧ _ := addInt_ok hversion rfl (h.allowed hadditive)
  refine ⟨{ r with block }, ?_, ?_⟩
  · unfold AdditiveRequest.exec
    dsimp only
    rw [hcall]
  · constructor
    · exact ⟨hsame.heapLocation.trans h.same.heapLocation, hsame.size.trans h.same.size,
        hsame.accessType.trans h.same.accessType⟩
    · unfold AdditiveRequest.collected
      dsimp only
      rw [hversions, view_put_self, Option.map_some, Option.getD_some, h.same.size]
      refine (leNat_leBytes_modEq _ _).trans ?_
      push_cast
      exact h.sum.add (twosComplement_modEq _ _)
    · intro e he
      dsimp only at he
      rw [hversions] at he
      obtain hnumber | hold := mem_put he
      · rwa [hnumber]
      · exact h.number_pos e (mem_of_mem_sync hold)
    · intro e he
      dsimp only at he
      rw [hversions] at he
      obtain hnumber | hold := mem_put he
      · exact Nat.le_of_eq hnumber
      · exact h.number_le e (mem_of_mem_sync hold)

/-- A new version starts with what is collected. -/
theorem Collected.saveVersion (h : Collected b r total) :
    Collected b { r with currentVersion := r.currentVersion + 1 } total := by
  constructor
  · exact h.same
  · unfold AdditiveRequest.collected
    dsimp only
    rw [view_succ fun e he => Nat.ne_of_lt (Nat.lt_succ_of_le (h.number_le e he))]
    exact h.sum
  · exact h.number_pos
  · exact fun e he => Nat.le_succ_of_le (h.number_le e he)

/-- A request that runs to its end has collected the sum of its amounts. -/
theorem Collected.run (hadditive : b.accessType.isAdditive = true) :
    ∀ {ops : List AdditiveOp} {r : AdditiveRequest} {total : Int},
    Collected b r total → r.run ops = .ok r' → Collected b r' (total + amount ops)
  | [], r, total, h, hrun => by
    obtain rfl := Except.ok.inj hrun
    rw [amount, Int.add_zero]
    exact h
  | .addInt value :: ops, r, total, h, hrun => by
    obtain hzero | hversion := Nat.eq_zero_or_pos r.currentVersion
    · rw [run_cons_error (exec_addInt_zero (h.allowed hadditive) hzero value)] at hrun
      cases hrun
    · obtain ⟨next, hexec, hnext⟩ := h.addInt hadditive hversion value
      rw [run_cons_ok hexec] at hrun
      have hrest := Collected.run hadditive hnext hrun
      rw [Int.add_assoc] at hrest
      exact hrest
  | .saveVersion :: ops, r, total, h, hrun => by
    by_cases hlimit : r.currentVersion = maxVersion
    · have hexec : r.exec .saveVersion =
          (.error (.asceeError "version limit reached" .limit_exceeded), r) := if_pos hlimit
      rw [run_cons_error hexec] at hrun
      have hrest := Collected.run hadditive h (hrun : r.run ops = .ok r')
      exact hrest
    · have hexec : r.exec .saveVersion =
          (.ok (), { r with currentVersion := r.currentVersion + 1 }) := if_neg hlimit
      rw [run_cons_ok hexec] at hrun
      have hrest := Collected.run hadditive h.saveVersion hrun
      exact hrest

/-- A request that starts with a fresh block has collected nothing. -/
theorem Collected.new (hblock : b.versionList = []) : Collected b { block := b } 0 := by
  constructor
  · exact SameBlock.refl b
  · unfold AdditiveRequest.collected
    rw [hblock]
    rfl
  · rw [hblock]
    simp
  · rw [hblock]
    simp

/-- Nothing is collected before the first version. -/
theorem Collected.versionList_zero (h : Collected b r total) (hzero : r.currentVersion = 0) :
    r.block.versionList = [] := by
  apply List.eq_nil_iff_forall_not_mem.mpr
  intro e he
  have hpos := h.number_pos e he
  have hle := h.number_le e he
  omega

end

/-! ## The heap -/

theorem leNat_lt : ∀ l : List Byte, leNat l < 256 ^ l.length
  | [] => by decide
  | x :: l => by
    have ih := leNat_lt l
    have hx := x.toNat_lt
    rw [leNat, List.length_cons, Nat.pow_succ]
    omega

/-- The low bytes of a number are the bytes of the number in a smaller width. -/
theorem take_leBytes : ∀ {k n : Nat} (v : Nat), k ≤ n → (leBytes n v).take k = leBytes k v
  | 0, _, _, _ => rfl
  | k + 1, n + 1, v, h => by
    rw [leBytes, leBytes, List.take_succ_cons, take_leBytes (v / 256) (Nat.le_of_succ_le_succ h)]

theorem readAt_writeAt {mem bytes : List Byte} {offset : Nat}
    (h : offset + bytes.length ≤ mem.length) :
    readAt (writeAt mem offset bytes) offset bytes.length = bytes := by
  apply List.ext_getElem
  · exact readAt_length _ _ _
  · intro i hi hbytes
    have hmem : offset + i < mem.length := by omega
    rw [readAt_getElem, List.getD_eq_getElem?_getD, writeAt_getElem?, List.getElem?_eq_getElem hmem]
    simp [hbytes]

/-- The number of the block has grown by this amount, and no other byte has changed. -/
structure Added (b : AccessBlock) (chunk chunk' : Chunk) (total : Int) : Prop where
  number : Int.ModEq (256 ^ b.size) (chunk'.number b.heapLocation b.size)
    (chunk.number b.heapLocation b.size + total)
  chunkSize : chunk'.getsize = chunk.getsize
  length : chunk'.content.length = chunk.content.length
  frame : ∀ i, i < b.heapLocation ∨ b.heapLocation + b.size ≤ i →
    chunk'.content[i]? = chunk.content[i]?

section
variable {b : AccessBlock} {r : AdditiveRequest} {chunk chunk₁ chunk₂ : Chunk}
  {total total₁ total₂ : Int}

theorem Added.refl : Added b chunk chunk 0 := by
  constructor
  · rw [Int.add_zero]
  · rfl
  · rfl
  · exact fun _ _ => rfl

theorem Added.trans (h₁ : Added b chunk chunk₁ total₁) (h₂ : Added b chunk₁ chunk₂ total₂) :
    Added b chunk chunk₂ (total₁ + total₂) := by
  constructor
  · rw [← Int.add_assoc]
    exact h₂.number.trans (h₁.number.add_right _)
  · exact h₂.chunkSize.trans h₁.chunkSize
  · exact h₂.length.trans h₁.length
  · exact fun i hi => (h₂.frame i hi).trans (h₁.frame i hi)

/-- The sum is stored in the bytes of the block. -/
theorem added_writeBytes (hinside : b.heapLocation + b.size ≤ chunk.getsize) (n : Nat) :
    Added b chunk (chunk.writeBytes b.heapLocation
      (leBytes b.size (chunk.number b.heapLocation b.size + n))) n := by
  have hmem : b.heapLocation + b.size ≤ chunk.content.length := Nat.le_trans hinside chunk.size_le
  constructor
  · have hread : ∀ v, readAt (writeAt chunk.content b.heapLocation (leBytes b.size v))
        b.heapLocation b.size =
          leBytes b.size v := by
      intro v
      have hlen := leBytes_length b.size v
      have h : readAt (writeAt chunk.content b.heapLocation (leBytes b.size v)) b.heapLocation
          (leBytes b.size v).length = _ :=
        readAt_writeAt (by rwa [hlen])
      rwa [hlen] at h
    have hnumber : (chunk.writeBytes b.heapLocation
        (leBytes b.size (chunk.number b.heapLocation b.size + n))).number
          b.heapLocation b.size = leNat (leBytes b.size (chunk.number b.heapLocation b.size + n)) :=
      congrArg leNat (hread _)
    rw [hnumber]
    refine (leNat_leBytes_modEq _ _).trans ?_
    push_cast
    rfl
  · rfl
  · exact writeAt_length _ _ _
  · intro i hi
    apply writeAt_frame
    rwa [leBytes_length]

/-- What one request adds to the heap is what it has collected. -/
theorem Collected.writeToHeap (h : Collected b r total) (hadditive : b.accessType.isAdditive = true)
    (hsize : b.size ≤ 8)
    (hinside : b.heapLocation + b.size ≤ chunk.getsize) :
    ∃ chunk', r.writeToHeap chunk = .ok chunk' ∧ Added b chunk chunk' r.collected := by
  have hloc := h.same.heapLocation
  have hwidth := h.same.size
  have haccess : r.block.accessType.isAdditive = true := by rwa [h.same.accessType]
  unfold AdditiveRequest.writeToHeap
  obtain hzero | hversion := Nat.eq_zero_or_pos r.currentVersion
  · rw [if_pos hzero]
    -- nothing was saved, so nothing was added
    have hnone : r.collected = 0 := by
      unfold AdditiveRequest.collected
      rw [h.versionList_zero hzero]
      rfl
    rw [hnone]
    exact ⟨chunk, rfl, Added.refl⟩
  · rw [if_neg (Nat.ne_of_gt hversion)]
    unfold AccessBlock.wrToHeap
    have htop : top (r.block.syncTo r.currentVersion).versionList =
        view r.currentVersion r.block.versionList := rfl
    rw [htop]
    cases hview : view r.currentVersion r.block.versionList with
    | none =>
      have hnone : r.collected = 0 := by
        unfold AdditiveRequest.collected
        rw [hview]
        rfl
      rw [hnone]
      exact ⟨chunk, rfl, Added.refl⟩
    | some content =>
      have hsome : r.collected = leNat content := by
        unfold AdditiveRequest.collected
        rw [hview]
        rfl
      -- the block lies inside the chunk, so all its bytes are written
      have hall : min r.block.size (chunk.getsize - r.block.heapLocation) = b.size := by
        rw [hwidth, hloc]
        omega
      have hsmall : ¬ r.block.size > 8 := by omega
      refine ⟨_, ?_, added_writeBytes hinside r.collected⟩
      dsimp only
      rw [if_pos haccess, if_neg hsmall, hall, take_leBytes _ hsize, hsome, hloc, hwidth]
      rfl

/-- **Any order.** Requests that are written one after another add the sum of what
they have collected. -/
theorem writeAll_added (hadditive : b.accessType.isAdditive = true) (hsize : b.size ≤ 8) :
    ∀ {rs : List AdditiveRequest} {chunk : Chunk},
    (∀ r ∈ rs, ∃ total, Collected b r total) → b.heapLocation + b.size ≤ chunk.getsize →
      ∃ chunk', AdditiveRequest.writeAll rs chunk = .ok chunk' ∧
        Added b chunk chunk' ((rs.map fun r => (r.collected : Int)).sum)
  | [], chunk, _, _ => ⟨chunk, rfl, Added.refl⟩
  | r :: rs, chunk, h, hinside => by
    obtain ⟨total, hr⟩ := h r List.mem_cons_self
    obtain ⟨chunk₁, hwrite, hadded⟩ := hr.writeToHeap hadditive hsize hinside
    have hinside₁ : b.heapLocation + b.size ≤ chunk₁.getsize := by rwa [hadded.chunkSize]
    obtain ⟨chunk₂, hrest, hadded₂⟩ :=
      writeAll_added hadditive hsize (fun r hr => h r (List.mem_cons_of_mem _ hr)) hinside₁
    refine ⟨chunk₂, ?_, ?_⟩
    · rw [AdditiveRequest.writeAll, hwrite]
      exact hrest
    · rw [List.map_cons, List.sum_cons]
      exact hadded.trans hadded₂

end

/-- Requests that have run to their end have collected the sum of all their amounts. -/
theorem sum_collected {b : AccessBlock} (hadditive : b.accessType.isAdditive = true)
    (hfresh : b.versionList = []) :
    ∀ {programs : List (List AdditiveOp)} {requests : List AdditiveRequest},
      List.Forall₂ (fun ops r => AdditiveRequest.run { block := b } ops = .ok r) programs requests →
        Int.ModEq (256 ^ b.size) ((requests.map fun r => (r.collected : Int)).sum)
          ((programs.map amount).sum) ∧
          ∀ r ∈ requests, ∃ total, Collected b r total
  | _, _, .nil => by simp
  | _, _, .cons hrun hrest => by
    have hr := (Collected.new hfresh).run hadditive hrun
    obtain ⟨hsum, hall⟩ := sum_collected hadditive hfresh hrest
    constructor
    · rw [List.map_cons, List.sum_cons, List.map_cons, List.sum_cons]
      refine Int.ModEq.add ?_ hsum
      have hone := hr.sum
      rwa [Int.zero_add] at hone
    · exact List.forall_mem_cons.mpr ⟨⟨_, hr⟩, hall⟩

/-- **Additive updates commute.** Whatever the order in which the requests are written to the heap,
the block ends with its initial value plus all amounts of all requests, modulo its width, and the
other bytes of the chunk are as before. The programs are those that return (`hruns`): in each of
them a `saveVersion` comes before the first `addInt`, which on version 0 is an assertion that fails
and ends the process. -/
theorem additiveUpdates_commute {heapLocation size : Nat} (hsize : size ∈ [1, 2, 4, 8])
    {block : AccessBlock}
    (hblock : AccessBlock.new heapLocation size .int_additive = .ok block) {chunk : Chunk}
    (hinside : heapLocation + size ≤ chunk.getsize) {programs : List (List AdditiveOp)}
    {requests order : List AdditiveRequest}
    (hruns : List.Forall₂ (fun ops r => AdditiveRequest.run { block } ops = .ok r) programs
      requests) (horder : order.Perm requests) :
    ∃ chunk', AdditiveRequest.writeAll order chunk = .ok chunk' ∧
      (chunk'.number heapLocation size : Int) =
      (chunk.number heapLocation size + (programs.map amount).sum) % 2 ^ (8 * size) ∧
      chunk'.content.length = chunk.content.length ∧
      ∀ i, i < heapLocation ∨ heapLocation + size ≤ i → chunk'.content[i]? = chunk.content[i]? := by
  have hsmall : size ≤ 8 := by
    simp only [List.mem_cons, List.not_mem_nil, or_false] at hsize
    omega
  have hb : block = { heapLocation, size, accessType := .int_additive } := by
    have hle : size ≤ maxChunkSize := Nat.le_trans hsmall (by decide)
    rw [AccessBlock.new, if_pos hle] at hblock
    exact (Except.ok.inj hblock).symm
  subst hb
  obtain ⟨hsum, hall⟩ := sum_collected rfl rfl hruns
  have horderAll := fun r hr => hall r (horder.subset hr)
  obtain ⟨chunk', hwrite, hadded⟩ := writeAll_added rfl hsmall horderAll hinside
  refine ⟨chunk', hwrite, ?_, hadded.length, hadded.frame⟩
  -- the sum does not depend on the order, and the number is below the modulus
  have hmod : Int.ModEq (256 ^ size) (chunk'.number heapLocation size)
      (chunk.number heapLocation size + (programs.map amount).sum) := by
    refine hadded.number.trans (Int.ModEq.add_left _ ?_)
    rw [(horder.map _).sum_eq]
    exact hsum
  have hpow : (2 : Int) ^ (8 * size) = 256 ^ size := by
    rw [pow_mul]
    rfl
  have hlt : (chunk'.number heapLocation size : Int) < 256 ^ size := by
    have h := leNat_lt (readAt chunk'.content heapLocation size)
    rw [readAt_length] at h
    exact_mod_cast h
  rw [hpow, ← hmod, Int.emod_eq_of_lt (Int.natCast_nonneg _) hlt]

/-- A counter of two bytes at the start of a chunk of four. -/
def counterChunk : Chunk := { content := [250, 255, 7, 9], chunkSize := 4 }

/-- One request adds in two versions. -/
def counterPrograms : List (List AdditiveOp) :=
  [[.saveVersion, .addInt 10], [.saveVersion, .addInt (-3), .saveVersion, .addInt 5]]

/-- The requests at their end. -/
def counterRequests : List AdditiveRequest :=
  [{ currentVersion := 1
     block :=
       { heapLocation := 0, size := 2, accessType := .int_additive
         versionList := [⟨1, [10, 0]⟩] } },
   { currentVersion := 2
     block :=
       { heapLocation := 0, size := 2, accessType := .int_additive
         versionList := [⟨2, [2, 0]⟩, ⟨1, [253, 255]⟩] } }]

theorem additiveUpdates_commute_reverse :
    ∃ chunk', AdditiveRequest.writeAll counterRequests.reverse counterChunk = .ok chunk' ∧
    (chunk'.number 0 2 : Int) = (counterChunk.number 0 2 + (counterPrograms.map amount).sum) %
    2 ^ (8 * 2) ∧
    chunk'.content.length = counterChunk.content.length ∧
    ∀ i, i < 0 ∨ 0 + 2 ≤ i → chunk'.content[i]? = counterChunk.content[i]? :=
  additiveUpdates_commute (by decide) rfl
    (by decide) (.cons rfl (.cons rfl .nil)) (List.reverse_perm _)

example : (AdditiveRequest.writeAll counterRequests counterChunk).toOption.map
    Chunk.content = some [6, 0, 7, 9] := by decide

end Argennon

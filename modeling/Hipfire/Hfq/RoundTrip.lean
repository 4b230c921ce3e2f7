import Hipfire.Hfq.Reader
import Hipfire.Hfq.Writer
/-!
# RoundTrip — what is written is what is opened

The brace scan passes over every JSON value inside an object (`passes_denotes`), so it stops at the end of the metadata and
nowhere before.  From there each index entry is read where it was written, and the running sum of the sizes is the place of
each payload.
-/
namespace Hipfire.Hfq

open Json NewTensor List

/-! ## The scan ends with the metadata -/

/-- Inside an object the scan passes over the text. -/
def Passes (s : Bytes) : Prop :=
  ∀ (depth : Int) (i : Nat) (rest : Bytes), 1 ≤ depth →
    jsonEnd depth false false i (s ++ rest) = jsonEnd depth false false (i + s.length) rest

variable {s t : Bytes} {n pos : Nat} {b : UInt8} {inString : Bool}

theorem passes_nil : Passes [] := fun _ _ _ _ => rfl

theorem Passes.append (hs : Passes s) (ht : Passes t) : Passes (s ++ t) := by
  intro depth i rest hd
  rw [append_assoc, hs depth i _ hd, ht depth _ rest hd, length_append, Nat.add_assoc]

/-- The scan passes over the text at any depth, inside a string or outside. -/
def Skims (inString : Bool) (s : Bytes) : Prop :=
  ∀ (depth : Int) (i : Nat) (rest : Bytes),
    jsonEnd depth inString false i (s ++ rest) = jsonEnd depth inString false (i + s.length) rest

theorem skims_nil : Skims inString [] := fun _ _ _ => rfl

theorem Skims.append (hs : Skims inString s) (ht : Skims inString t) : Skims inString (s ++ t) := by
  intro depth i rest
  rw [append_assoc, hs, ht, length_append, Nat.add_assoc]

theorem skims_all (h : ∀ b ∈ s, Skims inString [b]) : Skims inString s := by
  induction s with
  | nil => exact skims_nil
  | cons b s ih => exact (h b mem_cons_self).append (ih (forall_mem_cons.1 h).2)

theorem skims_outside (h : ∀ b ∈ s, b ≠ quote ∧ b ≠ openBrace ∧ b ≠ closeBrace) : Skims false s := by
  refine skims_all fun b hb depth i rest => ?_
  rw [singleton_append, jsonEnd]
  simp [h b hb]

theorem skims_inside (h : ∀ b ∈ s, b ≠ quote ∧ b ≠ backslash) : Skims true s := by
  refine skims_all fun b hb depth i rest => ?_
  rw [singleton_append, jsonEnd]
  simp [h b hb]

theorem skims_space (h : IsSpace s) : Skims false s := by
  refine skims_outside fun b hb => ?_
  have hws := h b hb
  refine ⟨?_, ?_, ?_⟩ <;> rintro rfl <;> revert hws <;> decide

theorem passes_all (h : ∀ b ∈ s, b ≠ quote ∧ b ≠ openBrace ∧ b ≠ closeBrace) : Passes s :=
  fun depth i rest _ => skims_outside h depth i rest

theorem passes_space (h : IsSpace s) : Passes s := fun depth i rest _ => skims_space h depth i rest

theorem passes_number (h : IsNumber s) : Passes s := by
  refine passes_all fun b hb => ?_
  have hbyte := h.bytes b hb
  refine ⟨?_, ?_, ?_⟩ <;> rintro rfl <;> revert hbyte <;> decide

theorem skims_escape (b : UInt8) : Skims true [backslash, b] := by
  intro depth i rest
  rfl

theorem skims_unicode {a c d : UInt8} (h : hexNumber [a, b, c, d] = some n) : Skims true [backslash, 117, a, b, c, d] :=
  (skims_escape 117).append (skims_inside fun x hx => ((hexNumber_four h).2 x hx).2)

/-- The scan passes over what stands between quotes, escapes included. -/
theorem skims_chars {cs : List Char} (h : Chars s cs) : Skims true s := by
  induction h with
  | nil => exact skims_nil
  | plain _ hq hb _ ih => exact (skims_inside (plain_of_char hq hb)).append ih
  | escape _ _ ih => exact (skims_escape _).append ih
  | unicode hn _ _ _ ih => exact (skims_unicode hn).append ih
  | pair hhi _ hlo _ _ ih => exact (skims_unicode hhi).append ((skims_unicode hlo).append ih)

theorem passes_quoted {chars : Bytes} {cs : List Char} (hchars : Chars chars cs) : Passes (quoted chars) := by
  unfold quoted
  intro depth i rest _
  have hopen : jsonEnd depth false false i (quote :: (chars ++ [quote] ++ rest)) =
      jsonEnd depth true false (i + 1) (chars ++ [quote] ++ rest) := by
    rw [jsonEnd]
    simp [quote, backslash]
  have hclose : ∀ j, jsonEnd depth true false j (quote :: rest) = jsonEnd depth false false (j + 1) rest := by
    intro j
    rw [jsonEnd]
    simp [quote, backslash]
  rw [cons_append, hopen, append_assoc, skims_chars hchars, singleton_append, hclose]
  simp only [length_cons, length_append, length_nil]
  congr 1
  omega

theorem passes_commaList : ∀ {items : List Bytes}, (∀ t ∈ items, Passes t) → Passes (commaList items)
  | [], _ => passes_nil
  | [t], h => by
    rw [commaList_singleton]
    exact h t mem_cons_self
  | t :: t' :: items, h => by
    exact (h t mem_cons_self).append (Passes.append (s := [44]) (passes_all (by decide +kernel))
      (passes_commaList (forall_mem_cons.1 h).2))

theorem jsonEnd_open (depth : Int) (i : Nat) (rest : Bytes) :
    jsonEnd depth false false i (openBrace :: rest) = jsonEnd (depth + 1) false false (i + 1) rest := by
  rw [jsonEnd]
  simp [openBrace, quote, backslash]

/-- What a pair of braces holds; the closing one ends the scan at depth one alone. -/
theorem jsonEnd_braces {inner : Bytes} (h : Passes inner) {depth : Int} (hd : 0 ≤ depth) (i : Nat) (rest : Bytes) :
    jsonEnd depth false false i (openBrace :: (inner ++ [closeBrace]) ++ rest) =
      if depth = 0 then i + (inner.length + 2) else jsonEnd depth false false (i + (inner.length + 2)) rest := by
  rw [cons_append, append_assoc, jsonEnd_open, h _ _ _ (by omega), singleton_append, jsonEnd]
  simp only [Bool.false_eq_true, if_false, and_false, closeBrace, quote, openBrace, if_true,
    show ¬ (125 : UInt8) = 34 by decide, show ¬ (125 : UInt8) = 123 by decide, Int.add_sub_cancel]
  split
  · omega
  · congr 1
    omega

theorem passes_item {i : Item} (h : i.Blank) (htext : Passes i.text) : Passes i.bytes :=
  ((passes_space h.before).append htext).append (passes_space h.after)

theorem passes_items {items : List Item} (hblank : ∀ i ∈ items, i.Blank) (htext : ∀ i ∈ items, Passes i.text) :
    Passes (commaList (items.map Item.bytes)) := by
  refine passes_commaList fun t ht => ?_
  obtain ⟨i, hi, rfl⟩ := mem_map.1 ht
  exact passes_item (hblank i hi) (htext i hi)

theorem passes_members {members : List Member} (hkeyed : ∀ m ∈ members, m.Keyed)
    (htext : ∀ m ∈ members, Passes m.value.text) : Passes (commaList (members.map Member.bytes)) := by
  refine passes_commaList fun t ht => ?_
  obtain ⟨m, hm, rfl⟩ := mem_map.1 ht
  have hk := hkeyed m hm
  exact ((((passes_space hk.before).append (passes_quoted hk.key)).append (passes_space hk.after)).append
    (passes_all (by decide +kernel))).append (passes_item hk.value (htext m hm))

/-- **Inside an object the scan passes over every JSON value.** -/
theorem passes_denotes {d : Doc} (h : Denotes s d) : Passes s := by
  induction h with
  | null | true | false => exact passes_all (by decide +kernel)
  | num h => exact passes_number h
  | str h => exact passes_quoted h
  | arr hblank hitems _ ih =>
    exact Passes.append (s := [91]) (passes_all (by decide +kernel))
      (((passes_space hblank).append (passes_items hitems ih)).append (passes_all (by decide +kernel)))
  | obj hblank hkeyed _ ih =>
    intro depth i rest hd
    unfold objectText
    rw [jsonEnd_braces ((passes_space hblank).append (passes_members hkeyed ih)) (by omega), if_neg (by omega)]
    simp only [length_cons, length_append, length_nil]

/-- **The scan ends where the metadata ends, whatever follows.** -/
theorem jsonEnd_object (h : IsObject s) (rest : Bytes) : jsonEnd 0 false false 0 (s ++ rest) = s.length := by
  obtain ⟨before, text, members, hbefore, htext, rfl⟩ := h
  cases htext with
  | obj hblank hkeyed hvalues =>
    unfold objectText
    rw [append_assoc, skims_space hbefore,
      jsonEnd_braces ((passes_space hblank).append (passes_members hkeyed fun m hm => passes_denotes (hvalues m hm)))
        (Int.le_refl 0), if_pos rfl]
    simp only [length_cons, length_append, length_nil]
    omega

theorem IsObject.length_pos (h : IsObject s) : 0 < s.length := by
  obtain ⟨before, text, members, -, htext, rfl⟩ := h
  cases htext with
  | obj _ _ _ =>
    unfold objectText
    simp only [length_cons, length_append, length_nil]
    omega

/-! ## Numbers at their place -/

theorem leNat_at {file : Bytes} {width : Nat} (h : At file pos (leBytes width n)) :
    leNat (slice file pos width) = n % 256 ^ width := by
  rw [h.slice_of_length (length_leBytes width n), leNat_leBytes]

theorem u16At_eq {file : Bytes} (h : At file pos (leBytes 2 n)) (hn : n < 65536) : u16At file pos = n := by
  unfold u16At
  rw [leNat_at h, Nat.mod_eq_of_lt (by simpa using hn)]

theorem u32At_eq {file : Bytes} (h : At file pos (leBytes 4 n)) (hn : n < 4294967296) : u32At file pos = n := by
  unfold u32At
  rw [leNat_at h, Nat.mod_eq_of_lt (by simpa using hn)]

theorem u64At_eq {file : Bytes} (h : At file pos (leBytes 8 n)) (hn : n < 18446744073709551616) :
    u64At file pos = n := by
  unfold u64At
  rw [leNat_at h, Nat.mod_eq_of_lt (by simpa using hn)]

theorem readShape_eq {file : Bytes} : ∀ {shape : List UInt32} {pos : Nat},
    At file pos (shape.flatMap (fun d => leBytes 4 d.toNat)) → readShape file shape.length pos = shape
  | [], _, _ => rfl
  | d :: shape, pos, h => by
    have hrest := h.right
    rw [length_leBytes] at hrest
    rw [length_cons, readShape, u32At_eq h.left d.toNat_lt, UInt32.ofNat_toNat, readShape_eq hrest]

theorem length_shape (shape : List UInt32) : (shape.flatMap (fun d => leBytes 4 d.toNat)).length = shape.length * 4 := by
  induction shape with
  | nil => rfl
  | cons d shape ih =>
    rw [flatMap_cons, length_append, length_leBytes, ih, length_cons]
    omega

theorem need_of_le {file : Bytes} {stop : Nat} (what : Part) (h : stop ≤ file.length) : need file stop what = .ok () :=
  if_neg (by omega)

theorem checkedAdd_of_lt {a b : Nat} (e : OpenError) (h : a + b < usizeLimit) : checkedAdd a b e = .ok (a + b) :=
  if_pos h

/-! ## The index -/

/-- The fields of a tensor are within what the index can say of it. -/
structure NewTensor.Fits (t : NewTensor) : Prop where
  name : (textBytes t.name).length < 65536
  shape : t.shape.length ≤ 255

/-- What the reader says of a tensor whose payload is at `start`. -/
def NewTensor.info (t : NewTensor) (start : Nat) : HfqTensorInfo :=
  ⟨t.name, t.quantType, t.shape, t.groupSize, start, t.data.length⟩

theorem NewTensor.indexEntry_eq (t : NewTensor) : t.fresh.indexEntry =
    leBytes 2 (textBytes t.name).length ++ (textBytes t.name ++ (t.quantType :: UInt8.ofNat t.shape.length ::
      (t.shape.flatMap (fun d => leBytes 4 d.toNat) ++ (leBytes 4 t.groupSize.toNat ++ leBytes 8 t.data.length)))) := by
  unfold HfqTensor.indexEntry
  simp only [append_assoc, singleton_append]
  rfl

theorem NewTensor.length_indexEntry (t : NewTensor) :
    t.fresh.indexEntry.length = 2 + (textBytes t.name).length + 2 + t.shape.length * 4 + 12 := by
  rw [t.indexEntry_eq]
  simp only [length_append, length_cons, length_leBytes, length_shape]
  omega

/-- **An entry is read back where it was written.** -/
theorem readTensor_eq (lib : Library) {file : Bytes} {t : NewTensor} {start : Nat}
    {seen : List String} (hentry : At file pos t.fresh.indexEntry) (hfits : t.Fits)
    (hseen : t.name ∉ seen) (hfile : file.length < usizeLimit) (hstop : start + t.data.length ≤ file.length) :
    readTensor lib file seen pos start = .ok (t.info start, pos + t.fresh.indexEntry.length) := by
  have hsize : t.data.length < 18446744073709551616 := by
    unfold usizeLimit at hfile
    omega
  have hend := hentry.end_le
  rw [t.length_indexEntry] at hend ⊢
  rw [t.indexEntry_eq] at hentry
  -- The parts of the entry, each at its place.
  have hnameLen := u16At_eq hentry.left hfits.name
  have h₁ := hentry.right
  rw [length_leBytes] at h₁
  have hname := h₁.left.slice_eq
  have h₂ := h₁.right
  have h₃ := (At.right (a := [t.quantType]) h₂)
  have h₄ := (At.right (a := [UInt8.ofNat t.shape.length]) h₃)
  simp only [length_singleton, Nat.add_assoc, Nat.reduceAdd] at h₃ h₄
  have hshape := readShape_eq h₄.left
  have h₅ := h₄.right
  rw [length_shape] at h₅
  have hgroup := u32At_eq h₅.left t.groupSize.toNat_lt
  have hdata := h₅.right
  rw [length_leBytes] at hdata
  have hsize' := u64At_eq hdata hsize
  have hquant : file.getD (pos + 2 + (textBytes t.name).length) 0 = t.quantType := by
    rw [getD_eq_getElem?_getD, h₂.head]
    rfl
  have hdims : (file.getD (pos + 2 + (textBytes t.name).length + 1) 0).toNat = t.shape.length := by
    have hlen : t.shape.length < 256 := by
      have := hfits.shape
      omega
    rw [getD_eq_getElem?_getD, Nat.add_assoc, Nat.add_assoc, h₃.head]
    exact UInt8.toNat_ofNat_of_lt' hlen
  simp only [← Nat.add_assoc] at hshape hgroup hsize'
  unfold readTensor
  simp only [hnameLen, hname, fromUtf8Lossy_textBytes, hquant, hdims, hshape, hgroup, hsize', UInt32.ofNat_toNat, hseen,
    if_false]
  rw [need_of_le _ (by omega), need_of_le _ (by omega), need_of_le _ (by omega), need_of_le _ (by omega),
    need_of_le _ (by omega), checkedAdd_of_lt _ (by omega)]
  simp only [bind, Except.bind, pure, Except.pure, show ¬ file.length < start + t.data.length by omega, if_false]
  exact congrArg (fun n => Except.ok (t.info start, n)) (by omega)

/-- The payloads from `start` on, in order. -/
def infosFrom : Nat → List NewTensor → List HfqTensorInfo
  | _, [] => []
  | start, t :: tensors => t.info start :: infosFrom (start + t.data.length) tensors

/-- **The index is read back, the running sum of the sizes giving each payload's place.** -/
theorem readTensors_eq (lib : Library) {file : Bytes} (hfile : file.length < usizeLimit) :
    ∀ {tensors : List NewTensor} {pos start : Nat} {seen : List String},
      At file pos ((tensors.map fresh).flatMap HfqTensor.indexEntry) →
      At file start (tensors.flatMap data) → (∀ t ∈ tensors, t.Fits) → (tensors.map name).Nodup →
      (∀ t ∈ tensors, t.name ∉ seen) →
      readTensors lib file tensors.length seen pos start =
        .ok (infosFrom start tensors, start + (tensors.flatMap data).length)
  | [], _, _, _, _, _, _, _, _ => rfl
  | t :: tensors, pos, start, seen, hindex, hdata, hfits, hnodup, hseen => by
    obtain ⟨hnew, hnodup⟩ := nodup_cons.1 hnodup
    have hhead := readTensor_eq lib hindex.left (hfits t mem_cons_self) (hseen t mem_cons_self) hfile
      hdata.left.end_le
    have htail := @readTensors_eq lib file hfile tensors _ _ (t.name :: seen) hindex.right hdata.right
      (forall_mem_cons.1 hfits).2 hnodup
      (fun u hu hmem => by
        rcases mem_cons.1 hmem with hname | hmem
        · exact hnew (hname ▸ mem_map_of_mem hu)
        · exact hseen u (mem_cons_of_mem t hu) hmem)
    rw [length_cons, readTensors, hhead]
    simp only [bind, Except.bind]
    rw [show (t.info start).name = t.name from rfl, show (t.info start).dataSize = t.data.length from rfl, htail]
    simp only [pure, Except.pure, infosFrom, flatMap_cons, length_append, Nat.add_assoc]

/-! ## The container -/

/-- A tensor as it was appended and what the reader says of it, its bytes at the recorded place. -/
structure Matches (file : Bytes) (t : NewTensor) (info : HfqTensorInfo) : Prop where
  name : info.name = t.name
  quantType : info.quantType = t.quantType
  shape : info.shape = t.shape
  groupSize : info.groupSize = t.groupSize
  dataSize : info.dataSize = t.data.length
  inFile : info.dataOffset + info.dataSize ≤ file.length
  data : slice file info.dataOffset info.dataSize = t.data

theorem matches_infosFrom {file : Bytes} : ∀ {tensors : List NewTensor} {start : Nat},
    At file start (tensors.flatMap data) → List.Forall₂ (Matches file) tensors (infosFrom start tensors)
  | [], _, _ => .nil
  | t :: tensors, start, h => by
    exact .cons ⟨rfl, rfl, rfl, rfl, rfl, h.left.end_le, h.left.slice_eq⟩ (matches_infosFrom h.right)

theorem le_alignData (n : Nat) : n ≤ alignData n := by
  unfold alignData
  omega

theorem length_headerBytes (arch : UInt32) (count metadataOffset dataOffset : Nat) :
    (headerBytes arch count metadataOffset dataOffset).length = 32 := by
  unfold headerBytes hfqMagic
  simp only [length_append, length_leBytes, length_cons, length_nil]

theorem readHeader_eq {file : Bytes} {arch : UInt32} {count dataOffset : Nat}
    (h : At file 0 (headerBytes arch count 32 dataOffset)) (hcount : count < 4294967296) (hlow : 32 ≤ dataOffset)
    (hhigh : dataOffset ≤ file.length) (hfile : file.length < usizeLimit) :
    readHeader file 0 = .ok ⟨false, 1, arch, count, 32, dataOffset⟩ := by
  have hend := h.end_le
  rw [length_headerBytes] at hend
  unfold usizeLimit at hfile
  unfold headerBytes at h
  simp only [append_assoc] at h
  -- The fields of the header, each at its place.
  have hmagic := h.left.slice_eq
  have h₁ := h.right
  have hversion := u32At_eq h₁.left (by unfold hfqVersion; omega)
  have h₂ := h₁.right
  have harch := u32At_eq h₂.left arch.toNat_lt
  have h₃ := h₂.right
  have hcount' := u32At_eq h₃.left hcount
  have h₄ := h₃.right
  have hmeta := u64At_eq h₄.left (by omega)
  have hdata := u64At_eq h₄.right (by omega)
  simp only [length_leBytes, hfqMagic, length_cons, length_nil, Nat.zero_add, Nat.reduceAdd] at *
  unfold readHeader
  rw [checkedAdd_of_lt _ (by unfold usizeLimit; omega)]
  simp only [bind, Except.bind, Nat.zero_add, need_of_le .header hend, hmagic, hversion, harch, hcount', hmeta, hdata]
  rw [checkedAdd_of_lt _ (by unfold usizeLimit; omega), checkedAdd_of_lt _ (by unfold usizeLimit; omega)]
  simp only [hfqVersion, hfqMetadataOverlayFlag, hfqBaseFormatVersion, UInt32.ofNat_toNat, Nat.zero_add]
  simp [pure, Except.pure, show ¬ (dataOffset < 32 ∨ file.length < dataOffset) by omega]

/-- The parts of a container, each at its place. -/
theorem containerHead_parts (arch : UInt32) (metadata : String) (tensors : List HfqTensor) (data : Bytes) :
    ∃ dataOffset, 32 + (textBytes metadata).length + (indexBytes tensors).length ≤ dataOffset ∧
      let file := containerHead arch metadata tensors ++ data
      At file 0 (headerBytes arch tensors.length 32 dataOffset) ∧ At file 32 (textBytes metadata) ∧
        At file (32 + (textBytes metadata).length) (indexBytes tensors) ∧ At file dataOffset data := by
  refine ⟨_, le_alignData _, ?_⟩
  intro file
  have hparts : At file 0 (containerHead arch metadata tensors ++ data) := At.whole file
  rw [containerHead] at hparts
  have hdata := hparts.right
  have hindex := hparts.left.left.right
  have hmeta := hparts.left.left.left.right
  simp only [length_append, length_headerBytes, length_replicate, Nat.zero_add,
    Nat.add_sub_cancel' (le_alignData _)] at hdata hindex hmeta
  exact ⟨hparts.left.left.left.left, hmeta, hindex, hdata⟩

/-- **A container written from appended tensors, under any schedule of spills, opens to the same tensors.** -/
theorem container_round_trip (lib : Library) (arch : UInt32) (metadata : String) (steps : List BuildStep)
    (hmetadata : IsObject (textBytes metadata)) (hsymmetric : symmetricMarker lib metadata = false)
    (hqwen : ¬ (arch = 5 ∨ arch = 6 ∨ arch = 17) → qwen3Provenance lib metadata = none)
    (hnames : ((appended steps).map NewTensor.name).Nodup) (hfits : ∀ t ∈ appended steps, t.Fits)
    (hcount : (appended steps).length < 2 ^ 32) :
    ∃ file, writeHfq arch metadata (build steps).1 (some (build steps).2) = some file ∧
      (file.length < usizeLimit → ∃ f, openFile lib file = .ok f ∧ f.archId = arch ∧ f.metadataJson = metadata ∧
        List.Forall₂ (Matches file) (appended steps) f.tensors) := by
  refine ⟨_, writeHfq_build arch metadata steps, fun hfile => ?_⟩
  generalize appended steps = tensors at hnames hfits hcount hfile ⊢
  have hpos := IsObject.length_pos hmetadata
  -- The parts of the file, each at its place.
  obtain ⟨dataOffset, hunaligned, hparts⟩ := containerHead_parts arch metadata (tensors.map NewTensor.fresh)
    (tensors.flatMap NewTensor.data)
  rw [length_map] at hparts
  obtain ⟨hheader, hmeta, hindex, hdata⟩ := hparts
  have hdataEnd := hdata.end_le
  have hindexEnd := hindex.end_le
  have hmetaEnd : 32 + (textBytes metadata).length ≤ dataOffset := by omega
  obtain ⟨rest, hslice⟩ := hmeta.slice_from hmetaEnd
  have hheader' := readHeader_eq hheader hcount (by omega) (by omega) hfile
  unfold indexBytes at hindex hindexEnd
  rw [length_map] at hindex hindexEnd
  rw [length_append, length_leBytes] at hindexEnd
  have hcount' := u32At_eq hindex.left hcount
  have hentries := hindex.right
  rw [length_leBytes] at hentries
  have hread := readTensors_eq lib hfile hentries hdata hfits hnames (fun t _ => not_mem_nil)
  have hprovenance : checkProvenance lib arch metadata = .ok () := by
    unfold checkProvenance
    split
    · rfl
    · rename_i harch
      rw [hqwen harch]
  refine ⟨⟨1, arch, metadata, infosFrom dataOffset tensors, false, dataOffset⟩, ?_, rfl, rfl, matches_infosFrom hdata⟩
  unfold openFile openAtOffset
  rw [hheader']
  simp only [bind, Except.bind, hslice, jsonEnd_object hmetadata, take_left, fromUtf8Lossy_textBytes, hsymmetric]
  rw [if_neg (by omega), checkedAdd_of_lt _ (by omega)]
  dsimp only
  rw [checkedAdd_of_lt _ (by omega)]
  dsimp only
  rw [need_of_le _ (by omega), hcount']
  simp [hread, overlaidMetadata, hprovenance, pure, Except.pure]

/-- A library that reads every text as an empty object. -/
def plainLibrary : Library := ⟨fun _ => "", fun _ => some (.obj []), id, id, id⟩

/-- Three tensors, one without bytes; the first two are spilled. -/
def spilledSteps : List BuildStep :=
  [.append ⟨"a", 1, [2, 1], 0, [7, 8]⟩, .append ⟨"b", 2, [], 0, []⟩, .maybeSpill 1, .append ⟨"c", 44, [1], 128, [9]⟩]

theorem container_round_trip_spilled :
    ∃ file, writeHfq 9 "\x7b\x7d" (build spilledSteps).1 (some (build spilledSteps).2) = some file ∧
      ∃ f, openFile plainLibrary file = .ok f ∧ f.archId = 9 ∧ f.metadataJson = "\x7b\x7d" ∧
        List.Forall₂ (Matches file) (appended spilledSteps) f.tensors := by
  have hempty : Denotes (objectText [] []) (.obj []) :=
    Denotes.obj (nofun) (nofun) (nofun)
  have hobject : IsObject (textBytes "\x7b\x7d") := ⟨[], _, [], nofun, hempty, by decide +kernel⟩
  have hfits : ∀ t ∈ appended spilledSteps, t.Fits := by
    intro t ht
    have hall : ∀ t ∈ appended spilledSteps, (textBytes t.name).length < 65536 ∧ t.shape.length ≤ 255 := by
      decide +kernel
    exact ⟨(hall t ht).1, (hall t ht).2⟩
  obtain ⟨file, hwrite, hopen⟩ := container_round_trip plainLibrary 9 "\x7b\x7d" spilledSteps hobject (by decide +kernel)
    (fun _ => by decide +kernel) (by decide +kernel) hfits (by decide +kernel)
  have hlength : file.length < usizeLimit := by
    rw [← Option.some.inj hwrite]
    decide +kernel
  exact ⟨file, hwrite, hopen hlength⟩

end Hipfire.Hfq

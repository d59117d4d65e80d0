import Gyarados.Fs.ReadLoop

set_option autoImplicit false

/-! # Reading a file from its start

A call that stays inside the file delivers what it asks for, and so does each call of a sequence of
`fs_read` calls on one descriptor. -/

namespace Gyarados

namespace Image

variable {I : Image} {inode offset length : Nat}

/-- A read that stays inside the file and its valid blocks delivers exactly what it asks for. -/
theorem readData_eq (hinode : inode < I.nInodes) (hlen : offset + length ≤ I.fileSize inode)
    (hval : I.ValidBlocks inode (offset + length)) (hint : length < 0x80000000) :
    I.readData inode offset length
      = { ret := length, buf := I.fileBytes inode offset length } := by
  by_cases hoff : offset < I.fileSize inode
  · have hcases := readData_outcome length hinode hoff
    generalize I.readData inode offset length = r at hcases
    cases hcases with
    | full hgo => rw [toInt32_of_lt hint]
    | pastEnd hlt hgo hend => exact absurd hend (not_pastEnd (by omega))
    | @badEntry m hlt hgo hend hbad =>
        have := hval _ (Nat.div_le_div_right (show offset + (m + 1) ≤ offset + length by omega))
        exact absurd hbad.2 (by omega)
  · rw [readData, if_neg (by omega : ¬ inode ≥ I.nInodes), if_pos (by omega)]
    obtain rfl : length = 0 := by omega
    rw [fileBytes_zero]
    rfl

/-! ## Sequences of calls on one descriptor -/

/-- The `fs_read` calls with the given request sizes, each starting where the last one stopped. -/
def fsReads (I : Image) (fname : List UInt8) : Nat → List Nat → List DescRead
  | _, [] => []
  | pos, n :: ns =>
      let r := I.fsRead fname pos n
      r :: fsReads I fname r.filePosition ns

/-- The bytes stored in the first `n` places of each buffer, one buffer after the other. -/
def delivered (rs : List DescRead) (ns : List Nat) : List (Option UInt8) :=
  (List.zipWith (fun r n => (List.range n).map r.buf) rs ns).flatten

variable {fname : List UInt8} {temp : Dentry}

theorem fsRead_eq {pos n : Nat} (hd : I.readDentryByName fname = some temp)
    (hinode : temp.inodeNum < I.nInodes) (hlen : pos + n ≤ I.fileSize temp.inodeNum)
    (hval : I.ValidBlocks temp.inodeNum (pos + n)) (hint : n < 0x80000000) :
    I.fsRead fname pos n
      = { ret := n, buf := I.fileBytes temp.inodeNum pos n, filePosition := pos + n } := by
  have hsize := I.byte.word_lt (I.inodes + blockSize * temp.inodeNum)
  have hpos : ofInt32 ((pos : Int) + (n : Int)) = pos + n := by
    rw [← Int.natCast_add]
    apply ofInt32_natCast
    unfold fileSize at hlen
    omega
  simp only [fsRead, hd, ofInt32_natCast (by omega : n < 0x100000000),
    readData_eq hinode hlen hval hint, hpos]

/-- The calls from position `pos` on: call `i` answers request `i` in full and stops at `pos` plus
    the requests so far, and together they deliver the file from `pos` on. -/
theorem fsReads_from (hd : I.readDentryByName fname = some temp)
    (hinode : temp.inodeNum < I.nInodes) :
    ∀ (ns : List Nat) (pos : Nat), pos + ns.sum ≤ I.fileSize temp.inodeNum →
      I.ValidBlocks temp.inodeNum (pos + ns.sum) → ns.sum < 0x80000000 →
      I.fsReads fname pos ns = (List.range ns.length).map (fun i =>
        { ret := (ns.getD i 0 : Nat)
          buf := I.fileBytes temp.inodeNum (pos + (ns.take i).sum) (ns.getD i 0)
          filePosition := pos + (ns.take (i + 1)).sum }) ∧
      delivered (I.fsReads fname pos ns) ns
        = (List.range ns.sum).map (fun p => some (I.fileByte temp.inodeNum (pos + p))) := by
  intro ns
  induction ns with
  | nil => intro pos _ _ _; exact ⟨rfl, rfl⟩
  | cons n ns ih =>
      intro pos hlen hval hint
      rw [List.sum_cons] at hlen hval hint
      have hcall : I.fsRead fname pos n = _ :=
        fsRead_eq hd hinode (by omega)
          (fun k hk => hval k (hk.trans (Nat.div_le_div_right (by omega)))) (by omega)
      obtain ⟨hcalls, hbytes⟩ := ih (pos + n) (by omega) (by rwa [Nat.add_assoc]) (by omega)
      constructor
      · rw [fsReads, hcall, List.length_cons, List.range_succ_eq_map, List.map_cons, List.map_map]
        dsimp only
        rw [hcalls]
        simp [Function.comp_def, Nat.add_assoc]
      · have hfirst : (List.range n).map (I.fileBytes temp.inodeNum pos n)
            = (List.range n).map fun p => some (I.fileByte temp.inodeNum (pos + p)) := by
          refine List.map_congr_left ?_
          intro j hj
          rw [fileBytes, if_pos (List.mem_range.1 hj)]
        have hrest : delivered (I.fsReads fname pos (n :: ns)) (n :: ns)
            = (List.range n).map (I.fileBytes temp.inodeNum pos n)
              ++ delivered (I.fsReads fname (pos + n) ns) ns := by
          rw [fsReads, hcall]
          rfl
        rw [hrest, hfirst, hbytes, List.sum_cons, List.range_add, List.map_append, List.map_map]
        simp [Function.comp_def, Nat.add_assoc]

/-- **Sequential reading.** A descriptor opened on an entry found by name reads its file from the
    start, whatever the request sizes, up to the end of the file: call `i` returns its request,
    moves `file_position` to the sum so far and stores nothing past its request, and the buffers put
    one after the other are the first bytes of the file. The right-hand side of the last equation
    knows the sum of the requests only, so how it was cut does not matter. -/
theorem fsReads_sequential (hd : I.readDentryByName fname = some temp)
    (hinode : temp.inodeNum < I.nInodes) (ns : List Nat)
    (hsize : ns.sum ≤ I.fileSize temp.inodeNum) (htable : ns.sum / blockSize ≤ 1022)
    (hval : I.ValidBlocks temp.inodeNum ns.sum) :
    (I.fsReads fname 0 ns).length = ns.length ∧
    (∀ (i : Nat) (r : DescRead) (n : Nat), (I.fsReads fname 0 ns)[i]? = some r → ns[i]? = some n →
      r.ret = n ∧ r.filePosition = (ns.take (i + 1)).sum ∧ (∀ j, (r.buf j).isSome ↔ j < n)) ∧
    delivered (I.fsReads fname 0 ns) ns
      = (List.range ns.sum).map (fun p => some (I.fileByte temp.inodeNum p)) := by
  have hint : ns.sum < 0x80000000 := by
    simp only [blockSize] at htable
    omega
  obtain ⟨hcalls, hbytes⟩ := fsReads_from hd hinode ns 0 (by omega) (by rwa [Nat.zero_add]) hint
  refine ⟨by simp [hcalls], fun i r n hr hn => ?_, by simpa using hbytes⟩
  have hi : i < ns.length := (List.getElem?_eq_some_iff.1 hn).1
  rw [hcalls, List.getElem?_map, List.getElem?_range hi] at hr
  simp only [Option.map_some, Option.some.injEq] at hr
  have hget : ns.getD i 0 = n := by rw [List.getD_eq_getElem?_getD, hn]; rfl
  subst hr
  refine ⟨by simp only [hget], by simp, fun j => ?_⟩
  simp only [hget, fileBytes]
  split <;> simp [*]

/-- The second file of the small image, read across the border of its two blocks. -/
theorem fsReads_sequential_sample :
    (∀ r, (fsReads (sampleImage [⟨ascii "text", 2, 1⟩]) (ascii "text") 0 [4000, 0, 1000])[2]? =
      some r → r.ret = 1000 ∧ r.filePosition = 5000) ∧
    delivered (fsReads (sampleImage [⟨ascii "text", 2, 1⟩]) (ascii "text") 0 [4000, 0, 1000])
        [4000, 0, 1000] =
      (List.range 5000).map (fun p => some ((sampleImage [⟨ascii "text", 2, 1⟩]).fileByte 1 p)) := by
  obtain ⟨-, hcalls, hbytes⟩ := fsReads_sequential
    (show (sampleImage [⟨ascii "text", 2, 1⟩]).readDentryByName (ascii "text") =
      some ⟨ascii "text", 2, 1⟩ by decide +kernel) (by decide +kernel) [4000, 0, 1000]
    (by decide +kernel) (by decide) (by
      intro k hk
      have hle : k ≤ 1 := hk
      have hk' : k = 0 ∨ k = 1 := by omega
      rcases hk' with rfl | rfl <;> decide +kernel)
  exact ⟨fun r hr => ⟨(hcalls 2 r 1000 hr rfl).1, (hcalls 2 r 1000 hr rfl).2.1⟩, hbytes⟩

end Image

end Gyarados

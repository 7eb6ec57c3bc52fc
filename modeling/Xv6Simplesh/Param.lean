import Mathlib.Tactic.Common

/-! # Parameters

The constants of `param.h`, `fs.h`, `stat.h` and `mkfs.c` that several parts of the model read,
under the source's words.  They are reducible so that `omega` and `decide` see the numbers. -/

namespace Xv6Simplesh

/-- `MAXOPBLOCKS`: the blocks one file-system operation may write. -/
abbrev maxOpBlocks : Nat := 10

/-- `LOGSIZE`: the entries of `struct logheader`, "max data blocks in on-disk log". -/
abbrev logSize : Nat := maxOpBlocks * 3

/-- `FSSIZE`: the blocks of the file-system image. -/
abbrev fsSize : Nat := 20000

abbrev nproc : Nat := 64

abbrev nofile : Nat := 16

abbrev nfile : Nat := 100

/-- `NINODES`, which `mkfs` puts into the super block. -/
abbrev ninodes : Nat := 200

/-- `ROOTINO`. -/
abbrev rootIno : Nat := 1

/-- `T_DIR`. -/
abbrev tDir : Int := 1

abbrev dirsiz : Nat := 14

/-- `sizeof(struct dirent)`. -/
abbrev direntSize : Nat := 2 + dirsiz

def dot : List UInt8 := [46]

def dotdot : List UInt8 := [46, 46]

abbrev newline : UInt8 := 10

/-- `n` as an `int` holds it. -/
def int (n : Int) : Int := n.bmod 0x100000000

end Xv6Simplesh

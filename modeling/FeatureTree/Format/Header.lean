/-
The header of binary tree files: a magic number, the version of the format and
the type of the content, in 32 bits each.
-/
import FeatureTree.Stream.Reader

namespace FeatureTree.Header

/-- The number at the start of every binary tree file. -/
def magic : UInt32 := 0x4d415259

/-- The version of the format. -/
def version : Int32 := 40

/-- The bytes of the header for a content type. -/
def bytes (content : ContentType) : List UInt8 :=
  Stream.uint32Bytes magic ++ Stream.int32Bytes version ++ Stream.int32Bytes content.code

/-- Reads a header for the expected content type and refuses it at the first
field that is wrong. -/
def expect (content : ContentType) : Reader Unit := do
  let foundMagic ← Reader.uint32
  if foundMagic ≠ magic then Reader.fail (.notACart foundMagic)
  let foundVersion ← Reader.int32
  if foundVersion ≠ version then Reader.fail (.unsupportedVersion foundVersion version)
  let foundType ← Reader.int32
  if foundType ≠ content.code then Reader.fail (.typeMismatch content foundType)

end FeatureTree.Header

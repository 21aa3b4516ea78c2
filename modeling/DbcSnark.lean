import DbcSnark.ToMathlib.DoubleBase
import DbcSnark.ToMathlib.GreedyExpansion
import DbcSnark.ToMathlib.ShortestChain
import DbcSnark.ToMathlib.ChainCost
import DbcSnark.ToMathlib.BigEndian
import DbcSnark.ToMathlib.Loops
import DbcSnark.ToMathlib.Hexadecimal
import DbcSnark.ToMathlib.Reduction
import DbcSnark.ToMathlib.SignedBinary
import DbcSnark.ToMathlib.TwoSlots
import DbcSnark.ToMathlib.Pocklington
import DbcSnark.ToMathlib.Jacobian
import DbcSnark.ToMathlib.XOnly
import DbcSnark.ToMathlib.PackedPolynomial
import DbcSnark.ToMathlib.StreamingHash
import DbcSnark.ToMathlib.Lanes
import DbcSnark.ToMathlib.Warps
import DbcSnark.ToMathlib.RangeArgument
import DbcSnark.ToMathlib.RangeSoundness
import DbcSnark.Model.DBCTest.MyBigInt
import DbcSnark.Model.DBCTest.OptimalDBC
import DbcSnark.Model.DBCTest.Assign
import DbcSnark.Model.DBCTest.Greedy
import DbcSnark.Model.DBCTest.SubOptimal
import DbcSnark.Model.DBCTest.Variables
import DbcSnark.Model.DBCTest.Decode
import DbcSnark.Model.DBCTest.PointMul
import DbcSnark.Model.Gpuec.GetDBC
import DbcSnark.Model.Gpuec.RunDBC
import DbcSnark.Model.Gpuec.CurveTest
import DbcSnark.Model.Gpuec.ChainTest
import DbcSnark.Model.Gpuec.MyBig
import DbcSnark.Model.Gpuec.Wide
import DbcSnark.Model.Gpuec.InPlace
import DbcSnark.Model.Gpuec.PlainWords
import DbcSnark.Model.Gpuec.MonMult
import DbcSnark.Model.Gpuec.ModExp
import DbcSnark.Model.Gpuec.Point
import DbcSnark.Model.Gpuec.TripleV2
import DbcSnark.Model.Gpuec.Text
import DbcSnark.Model.Gpuec.Sha256
import DbcSnark.Model.Gpuec.Transcript
import DbcSnark.Model.Gpuec.MapToGroup
import DbcSnark.Model.Gpuec.MonInv
import DbcSnark.Model.Gpuec.Normalise
import DbcSnark.Model.Gpuec.MultiInverse
import DbcSnark.Model.Gpuec.MultiNormalise
import DbcSnark.Model.Gpuec.PointMult
import DbcSnark.Model.Gpuec.Commit
import DbcSnark.Model.Gpuec.UpdateGen
import DbcSnark.Model.Gpuec.RangeProof
import DbcSnark.Model.Gpuec.RangeVerify
import DbcSnark.Model.Gpuec.RangeSystem
import DbcSnark.Model.Gpuec.IpVerify
import DbcSnark.Model.Ec.EcpSmpl
import DbcSnark.Model.Ec.PointOps
import DbcSnark.Model.Ec.Affine
import DbcSnark.Model.Ec.Ladder
import DbcSnark.Model.DBCTest.EcPointMul
import DbcSnark.Model.DBCTest.MSMTest
import DbcSnark.Model.DBCTest.CostTable
import DbcSnark.Model.DBCTest.OptimalDBC2
import DbcSnark.Model.DBCTest.EccBinary
import DbcSnark.Proofs.DBCTest.MyBigInt
import DbcSnark.Proofs.DBCTest.Variables
import DbcSnark.Proofs.DBCTest.Decode
import DbcSnark.Proofs.DBCTest.Schedule
import DbcSnark.Proofs.DBCTest.OptimalCells
import DbcSnark.Proofs.DBCTest.StoredChain
import DbcSnark.Proofs.DBCTest.OptimalDBC
import DbcSnark.Proofs.DBCTest.CellReads
import DbcSnark.Proofs.DBCTest.Frontier
import DbcSnark.Proofs.DBCTest.Assign
import DbcSnark.Proofs.DBCTest.Greedy
import DbcSnark.Proofs.DBCTest.SubOptimal
import DbcSnark.Proofs.DBCTest.PointMul
import DbcSnark.Proofs.DBCTest.NonAdjacent
import DbcSnark.Proofs.Gpuec.GetDBC
import DbcSnark.Proofs.DBCTest.Fills
import DbcSnark.Proofs.Gpuec.TwoSlots
import DbcSnark.Proofs.Gpuec.RunDBC
import DbcSnark.Proofs.Gpuec.CurveTest
import DbcSnark.Proofs.Gpuec.ChainTest
import DbcSnark.Proofs.Gpuec.MyBig
import DbcSnark.Proofs.Gpuec.InPlace
import DbcSnark.Proofs.Gpuec.Wide
import DbcSnark.Proofs.Gpuec.Text
import DbcSnark.Proofs.Gpuec.Sha256
import DbcSnark.Proofs.Gpuec.Transcript
import DbcSnark.Proofs.Gpuec.MapToGroup
import DbcSnark.Proofs.Gpuec.MonInv
import DbcSnark.Proofs.Gpuec.PlainWords
import DbcSnark.Proofs.Gpuec.WideModulus
import DbcSnark.Proofs.Gpuec.Inversion
import DbcSnark.Proofs.Gpuec.Normalise
import DbcSnark.Proofs.Gpuec.MultiInverse
import DbcSnark.Proofs.Gpuec.MultiNormalise
import DbcSnark.Proofs.Gpuec.MonMult
import DbcSnark.Proofs.Gpuec.Montgomery
import DbcSnark.Proofs.Gpuec.ModExp
import DbcSnark.Proofs.Gpuec.Curve
import DbcSnark.Proofs.Gpuec.Point
import DbcSnark.Proofs.Gpuec.TripleV2
import DbcSnark.Proofs.Gpuec.MixedSum
import DbcSnark.Proofs.Gpuec.BasePoint
import DbcSnark.Proofs.Gpuec.RunPoints
import DbcSnark.Proofs.Gpuec.PointMult
import DbcSnark.Proofs.Gpuec.Commit
import DbcSnark.Proofs.Gpuec.UpdateGen
import DbcSnark.Proofs.Gpuec.RangeProof
import DbcSnark.Proofs.Gpuec.RangeVerify
import DbcSnark.Proofs.Gpuec.VectorCommit
import DbcSnark.Proofs.Gpuec.RangeSystem
import DbcSnark.Proofs.Gpuec.RangeSoundness
import DbcSnark.Proofs.Gpuec.IpVerify
import DbcSnark.Proofs.Ec.EcpSmpl
import DbcSnark.Proofs.Ec.PointOps
import DbcSnark.Proofs.Ec.Secp256k1
import DbcSnark.Proofs.Ec.OnCurve
import DbcSnark.Proofs.Ec.Affine
import DbcSnark.Proofs.Ec.Programs
import DbcSnark.Proofs.Ec.Ladder
import DbcSnark.Proofs.DBCTest.EcPointMul
import DbcSnark.Proofs.DBCTest.PartialSums
import DbcSnark.Proofs.DBCTest.MSMTest
import DbcSnark.Proofs.DBCTest.CostTable
import DbcSnark.Proofs.DBCTest.OptimalDBC2
import DbcSnark.Proofs.DBCTest.EccBinary

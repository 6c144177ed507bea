import FlintBtree.Item
import FlintBtree.Block
import FlintBtree.Space
import FlintBtree.Split
import FlintBtree.Base
import FlintBtree.Table
import FlintBtree.Mutate
import FlintBtree.Navigate
import FlintBtree.Api
import FlintBtree.Chunk
import FlintBtree.Run
import FlintBtree.Frame
import FlintBtree.Logic
import FlintBtree.Cancel
import FlintBtree.KeyOrder
import FlintBtree.Search
import FlintBtree.Room
import FlintBtree.Tree
import FlintBtree.Traverse
import FlintBtree.Scan
import FlintBtree.Find
import FlintBtree.Sequential
import FlintBtree.Lookup
import FlintBtree.Open
import FlintBtree.Commit
import FlintBtree.Bases
import FlintBtree.Reader
